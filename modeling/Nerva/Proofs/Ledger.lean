import Nerva.Proofs.BatchLimit
import Nerva.Proofs.BatchPool
import Nerva.Proofs.Supply
import Mathlib.Data.List.Chain
import Mathlib.Data.List.Flatten

/-!
# The ledger

Through batches of blocks, whatever is stored, popped, rolled back or aborted, no transaction and no
key image comes twice on the main chain.
-/

namespace Nerva

open List

section Ledger

variable {ce : ChainEnv} {node node' : Node} {l : List BlockInfo} {info : BlockInfo}

/-- A move keeps the main chain, pops its top block, or stores one. -/
theorem Move.blocks_cases (h : Move ce node node') :
    node'.bc.db.blocks = node.bc.db.blocks ∨
    node'.bc.db.blocks = node.bc.db.blocks.dropLast ∨
    ∃ diffic b es info, Stores ce node.bc diffic b es info ∧
      node'.bc.db.blocks = node.bc.db.blocks ++ [info] := by
  cases h with
  | aside haside => exact .inl haside.blocks
  | refuse b refusal => exact .inl (sameMain_refuseBlock ce node b refusal _).blocks
  | store _ htake =>
    obtain ⟨es, -, -, -, -, -, hstores⟩ := takeBlockTxs_ok htake
    exact .inr (.inr ⟨_, _, es, _, hstores, storeBlock_blocks ce node _ _⟩)
  | pop hpop =>
    obtain ⟨hlarge, hbc⟩ := popBlockFromBlockchain_bc hpop
    refine .inr (.inl ?_)
    rw [hbc, updateNextCumulativeWeightLimit_db, Blockchain.popBlock, if_pos hlarge]
  | reorganize height => exact .inl (reorganizeFromChainHeight_db_blocks node height)
  | incoming tx => exact .inl (addIncomingTx_sameMain ce node tx).blocks

/-- What a chain has without its top block, and keeps with a block that is stored on it, the main
chain has after any batches. -/
theorem Runs.blocks_keep {P : List BlockInfo → Prop} {Q : List AddResult → Node → Prop}
    (hpop : ∀ l, P l → P l.dropLast)
    (hstore : ∀ {bc : Blockchain} {diffic b es info}, Stores ce bc diffic b es info →
      P bc.db.blocks → P (bc.db.blocks ++ [info]))
    {batches : List Batch} (h : Runs ce Q node batches node') (hP : P node.bc.db.blocks) :
    P node'.bc.db.blocks := by
  induction h with
  | nil => exact hP
  | @cons node last _ batch _ _ _ _ hrun _ _ _ ih =>
    have hmove : ∀ {node node'}, Move ce node node' → P node.bc.db.blocks →
        P node'.bc.db.blocks := by
      intro node node' hmove hP
      rcases hmove.blocks_cases with heq | heq | ⟨_, _, _, _, hstores, heq⟩
      · rwa [heq]
      · rw [heq]
        exact hpop _ hP
      · rw [heq]
        exact hstore hstores hP
    obtain ⟨scanTable, hbc⟩ := prepareBlocks_bc node batch
    have hlast : P last.bc.db.blocks := (handleEntries_moves hrun).1.keep hmove (by rwa [hbc])
    refine ih ?_
    change P (if last.batchSuccess then last.bc.db else node.bc.db).blocks
    split_ifs
    · exact hlast
    · exact hP

/-- No transaction id and no key image comes twice, and neither the work nor the coins ever fall. -/
structure Ledger (l : List BlockInfo) : Prop where
  txHashes : (l.flatMap (·.bl.txHashes)).Nodup
  keyImages : (l.flatMap fun b => b.txs.flatMap (·.keyImages)).Nodup
  rising : l.IsChain fun a b => a.cumulativeDifficulty ≤ b.cumulativeDifficulty ∧
    a.alreadyGeneratedCoins ≤ b.alreadyGeneratedCoins

theorem Ledger.dropLast (h : Ledger l) : Ledger l.dropLast where
  txHashes := h.txHashes.sublist ((dropLast_sublist l).flatMap _)
  keyImages := h.keyImages.sublist ((dropLast_sublist l).flatMap _)
  rising := h.rising.dropLast

/-- Storing a block keeps the ledger. -/
theorem Ledger.stores {bc : Blockchain} {diffic : UInt64} {b : Block} {es : List PoolTx}
    (hstores : Stores ce bc diffic b es info) (h : Ledger bc.db.blocks) :
    Ledger (bc.db.blocks ++ [info]) := by
  obtain ⟨reward, next, -, -, rfl⟩ := hstores.paid
  have hspent := hstores.spent
  simp only [BlockchainDB.addSpentKeys, Bool.and_eq_true, decide_eq_true_eq, all_eq_true,
    Bool.not_eq_true', BlockchainDB.hasKeyImage, any_eq_false] at hspent
  refine ⟨?_, ?_, isChain_append.mpr ⟨h.rising, .singleton _, fun last hlast top htop => ?_⟩⟩
  · rw [flatMap_append, flatMap_singleton]
    refine h.txHashes.append (hstores.ids ▸ hstores.nodup) fun id hold hnew => ?_
    obtain ⟨below, hbelow, hid⟩ := mem_flatMap.mp hold
    obtain ⟨e, he, rfl⟩ := mem_map.mp (hstores.ids ▸ hnew)
    have hfresh := (hstores.valid e he).fresh
    rw [BlockchainDB.txExists, any_eq_false] at hfresh
    exact hfresh below hbelow (by simp [hid])
  · rw [flatMap_append, flatMap_singleton]
    refine h.keyImages.append hspent.1 fun k hold hnew => ?_
    obtain ⟨below, hbelow, hk⟩ := mem_flatMap.mp hold
    exact hspent.2 k hnew below hbelow (by simpa using hk)
  · obtain rfl := Option.some.inj htop
    have hcoins := computeGeneratedCoins_toNat reward bc.db.generatedCoins
    have hbelow : bc.db.generatedCoins = last.alreadyGeneratedCoins := by
      rw [BlockchainDB.generatedCoins, Option.mem_def.mp hlast]
      rfl
    have hsupply : last.alreadyGeneratedCoins.toNat ≤ moneySupply.toNat :=
      Nat.le_of_lt_succ last.alreadyGeneratedCoins.toNat_lt
    rw [UInt64.le_iff_toNat_le, hcoins, hbelow]
    simp only [Option.mem_def.mp hlast, Option.map_some, Option.getD_some]
    omega

/-- Whatever batches a node handles, no transaction and no key image is in its chain twice. -/
theorem ledger_of_runs {Q : List AddResult → Node → Prop} {batches : List Batch}
    (h : Runs ce Q node batches node') (hledger : Ledger node.bc.db.blocks) :
    Ledger node'.bc.db.blocks :=
  h.blocks_keep (fun _ => Ledger.dropLast) Ledger.stores hledger

end Ledger

def payingBatch : Batch := { takingBatch with entries := takingBatch.entries.take 1 }

set_option maxRecDepth 100000 in
theorem ledger_of_runs_payingBatch :
    ∃ node', Runs paidEnv (fun _ _ => True) waitingNode [payingBatch] node' ∧
      Ledger node'.bc.db.blocks ∧ node'.bc.db.hasKeyImage 7 = true := by
  have hrun : ((waitingNode.prepareBlocks payingBatch).handleEntries paidEnv 1
      payingBatch.entries).map
        (fun r => (r.2.cleanupBlocks waitingNode.bc.db).bc.db.hasKeyImage 7) =
        some true := by decide +kernel
  obtain ⟨⟨rs, last⟩, heq, hk⟩ := Option.map_eq_some_iff.mp hrun
  have hruns := Runs.cons (P := fun _ _ => True) last.pool heq trivial (fun _ => rfl) (.nil _)
  exact ⟨_, hruns,
    ledger_of_runs hruns ⟨by decide +kernel, by decide +kernel, by decide +kernel⟩, hk⟩

end Nerva
