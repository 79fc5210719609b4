import Nerva.Reorg
import Nerva.Proofs.DifficultyCache
import Nerva.Proofs.Reward
import Nerva.Proofs.Taken
import Mathlib.Data.List.Induction

/-!
# The steps of a reorganisation

A reorganisation pops blocks and adds blocks. What each of the two does to the chain, and what an
accepted block has passed.
-/

namespace Nerva

open List

@[simp] theorem updateNextCumulativeWeightLimit_db (bc : Blockchain) (pre : Option ℕ)
    (midBatch : Bool) : (bc.updateNextCumulativeWeightLimit pre midBatch).db = bc.db := by
  obtain ⟨_, _, _, _, heq⟩ := updateNextCumulativeWeightLimit_frame bc pre midBatch
  rw [heq]

@[simp] theorem updateNextCumulativeWeightLimit_hardfork (bc : Blockchain) (pre : Option ℕ)
    (midBatch : Bool) :
    (bc.updateNextCumulativeWeightLimit pre midBatch).hardfork = bc.hardfork := by
  obtain ⟨_, _, _, _, heq⟩ := updateNextCumulativeWeightLimit_frame bc pre midBatch
  rw [heq]

/-- Beside the block only the weight limits and their cache change. -/
theorem addBlockWeighed_frame (bc : Blockchain) (info : BlockInfo) (midBatch : Bool) :
    ∃ cache effective median limit, bc.addBlockWeighed info midBatch =
      { bc.addBlock info with
        longTermCache := cache
        longTermEffectiveMedianBlockWeight := effective
        currentBlockCumulWeightMedian := median
        currentBlockCumulWeightLimit := limit } :=
  updateNextCumulativeWeightLimit_frame _ _ _

@[simp] theorem addBlockWeighed_db (bc : Blockchain) (info : BlockInfo) (midBatch : Bool) :
    (bc.addBlockWeighed info midBatch).db = (bc.addBlock info).db := by
  obtain ⟨_, _, _, _, heq⟩ := addBlockWeighed_frame bc info midBatch
  rw [heq]

@[simp] theorem addBlockWeighed_hardfork (bc : Blockchain) (info : BlockInfo) (midBatch : Bool) :
    (bc.addBlockWeighed info midBatch).hardfork = (bc.addBlock info).hardfork := by
  obtain ⟨_, _, _, _, heq⟩ := addBlockWeighed_frame bc info midBatch
  rw [heq]

@[simp] theorem query_db (env : Env) (fns : DifficultyFns) (bc : Blockchain) :
    (getDifficultyForNextBlock env fns bc).2.db = bc.db := by
  obtain ⟨cache, hcache⟩ := getDifficultyForNextBlock_snd env fns bc
  rw [hcache]

@[simp] theorem revalidateFrom_bc (ce : ChainEnv) (node : Node) (previous : ℕ) :
    (node.revalidateFrom ce previous).bc = node.bc := by
  unfold Node.revalidateFrom
  simp only []
  split <;> rfl

section Steps

variable {ce : ChainEnv} {fixed : UInt64} {t : ForkTable} {genesis : BlockInfo} {S : Set Block}
  {needed out : List Transaction} {roomy : Prop} {node : Node} {b : Block} {info : BlockInfo}
  {pool : TxPool} {bc : Blockchain} {node' : Node}

theorem storeBlock_bc (ce : ChainEnv) (node : Node) (info : BlockInfo) (pool : TxPool) :
    (node.storeBlock ce info pool).bc = (getDifficultyForNextBlock ce.toEnv ce.fns
      (node.bc.addBlockWeighed info (node.midBatch (node.bc.db.height + 1)))).2 := by
  unfold Node.storeBlock
  simp only []
  split
  · rfl
  · rw [revalidateFrom_bc]

/-- Storing a block appends it. -/
theorem storeBlock_blocks (ce : ChainEnv) (node : Node) (info : BlockInfo) (pool : TxPool) :
    (node.storeBlock ce info pool).bc.db.blocks = node.bc.db.blocks ++ [info] := by
  rw [storeBlock_bc]
  simp

abbrev Node.queried (ce : ChainEnv) (node : Node) : Node :=
  { node with bc := (getDifficultyForNextBlock ce.toEnv ce.fns node.bc).2 }

/-- A block is refused at one of three stages, or stored. -/
theorem handleBlockToMainChain_cases (ce : ChainEnv) (node : Node) (b : Block) :
    (∃ refusal, node.handleBlockToMainChain ce b = (.error refusal, node)) ∨
    (∃ refusal, node.handleBlockToMainChain ce b = (.error refusal, node.queried ce)) ∨
    (∃ refusal t, takeBlockTxs ce (node.queried ce).bc
        (getDifficultyForNextBlock ce.toEnv ce.fns node.bc).1 node.pool b = .error (refusal, t) ∧
      node.handleBlockToMainChain ce b =
        (.error refusal, (node.queried ce).refuseBlock ce b refusal t)) ∨
    ∃ info pool, node.bc.checkBlockLinks ce.toEnv b = .ok () ∧
      takeBlockTxs ce (node.queried ce).bc
        (getDifficultyForNextBlock ce.toEnv ce.fns node.bc).1 node.pool b = .ok (info, pool) ∧
      node.handleBlockToMainChain ce b = (.ok (), (node.queried ce).storeBlock ce info pool) := by
  unfold Node.handleBlockToMainChain Node.queried
  cases hlinks : node.bc.checkBlockLinks ce.toEnv b with
  | error refusal => exact .inl ⟨refusal, rfl⟩
  | ok _ =>
    generalize getDifficultyForNextBlock ce.toEnv ce.fns node.bc = r
    obtain ⟨diffic, bc⟩ := r
    simp only []
    cases hwork : bc.checkBlockWork ce b diffic with
    | error refusal => exact .inr (.inl ⟨refusal, rfl⟩)
    | ok _ =>
      cases htake : takeBlockTxs ce bc diffic node.pool b with
      | error r => exact .inr (.inr (.inl ⟨r.1, r.2, rfl, rfl⟩))
      | ok r => exact .inr (.inr (.inr ⟨r.1, r.2, trivial, rfl, rfl⟩))

theorem Stores.addOk {es : List PoolTx}
    (h : Stores ce (getDifficultyForNextBlock ce.toEnv ce.fns bc).2
      (getDifficultyForNextBlock ce.toEnv ce.fns bc).1 b es info)
    (hlinks : bc.checkBlockLinks ce.toEnv b = .ok ()) :
    AddOk ce.toEnv ce.fns (getDifficultyForNextBlock ce.toEnv ce.fns bc).2 info := by
  have hwork := h.cumulativeDifficulty
  have hbl := h.bl
  obtain ⟨cache, hcache⟩ := getDifficultyForNextBlock_snd ce.toEnv ce.fns bc
  simp only [Blockchain.checkBlockLinks, Checks.bind_eq_ok, Checks.exists_unit,
    Checks.require_eq_ok] at hlinks
  obtain ⟨hprev, hcheck, -⟩ := hlinks
  refine ⟨?_, ?_, ?_⟩
  · rw [hbl, query_db, hprev]
  · rw [hbl, hcache]
    exact hcheck
  · rw [getDifficultyForNextBlock_again]
    exact hwork

/-- The block was added to the main chain. -/
structure Accepted (ce : ChainEnv) (node : Node) (b : Block) (info : BlockInfo) (node' : Node) :
    Prop where
  eq : node.handleBlockToMainChain ce b = (.ok (), node')
  blocks : node'.bc.db.blocks = node.bc.db.blocks ++ [info]
  take : ∃ left, takeBlockTxs ce (getDifficultyForNextBlock ce.toEnv ce.fns node.bc).2
    (getDifficultyForNextBlock ce.toEnv ce.fns node.bc).1 node.pool b = .ok (info, left)

theorem Accepted.stores (h : Accepted ce node b info node') :
    ∃ es, (∀ e ∈ es, e ∈ node.pool.txs) ∧
      Stores ce (getDifficultyForNextBlock ce.toEnv ce.fns node.bc).2
        (getDifficultyForNextBlock ce.toEnv ce.fns node.bc).1 b es info := by
  obtain ⟨left, htake⟩ := h.take
  obtain ⟨es, -, -, -, -, hmem, hstores⟩ := takeBlockTxs_ok htake
  exact ⟨es, hmem, hstores⟩

/-- What is known of an added block. -/
theorem exists_accepted (h : node.handleBlockToMainChain ce b = (.ok (), node')) :
    ∃ info, Accepted ce node b info node' := by
  rcases handleBlockToMainChain_cases ce node b with ⟨_, heq⟩ | ⟨_, heq⟩ | ⟨_, _, -, heq⟩ |
    ⟨info, pool, -, htake, heq⟩
  · cases heq.symm.trans h
  · cases heq.symm.trans h
  · cases heq.symm.trans h
  · refine ⟨info, h, ?_, pool, htake⟩
    rw [← (Prod.mk.inj (heq.symm.trans h)).2, storeBlock_blocks, query_db]

/-- What popping a block does to the chain. -/
theorem popBlockFromBlockchain_bc (h : node.popBlockFromBlockchain ce = some (b, node')) :
    1 < node.bc.db.height ∧
      node'.bc =
        { node.bc.popBlock with scanTable := [] }.updateNextCumulativeWeightLimit none false := by
  unfold Node.popBlockFromBlockchain at h
  split at h
  · cases h
  · split at h
    · cases h
    · obtain ⟨-, rfl⟩ := h
      exact ⟨by omega, revalidateFrom_bc _ _ _⟩

end Steps

@[simp] theorem reorganizeFromChainHeight_db_blocks (node : Node) (height : ℕ) :
    (node.reorganizeFromChainHeight height).bc.db.blocks = node.bc.db.blocks :=
  (HardFork.reorganizeFromChainHeight_blocks node.bc.hardfork node.bc.db height).1

def paidReward : ℕ → UInt64
  | 0 => baseReward 0
  | 1 => premine
  | n + 2 => baseReward (minedCoins (n + 1))

def paidCoinbase (height version : ℕ) (amount : UInt64) : Transaction where
  version := 1
  unlockTime := UInt64.ofNat (height + coinbaseUnlockWindow version)
  vin := [.gen height]
  vout := [⟨amount, .toKey 0⟩]
  extra := []
  rctSignatures := ⟨.null, 0, [], [], [], []⟩
  pruned := false

def paidBlock (height nonce : ℕ) (prevId : Hash) (amount : UInt64) (txHashes : List Hash) :
    Block where
  majorVersion := ForkTable.testnet.versionAt height
  minorVersion := ForkTable.testnet.versionAt height
  timestamp := 1000000 + 60 * UInt64.ofNat height
  prevId := prevId
  nonce := nonce
  minerTx := paidCoinbase height (ForkTable.testnet.versionAt height) amount
  txHashes := txHashes

def paidInfo (height : ℕ) : BlockInfo where
  bl := paidBlock height height height (paidReward height) []
  txs := []
  blockWeight := 80
  longTermBlockWeight := 80
  cumulativeDifficulty := height + 1
  alreadyGeneratedCoins := minedCoins height

/-- A block hashes to the number after its nonce, a transaction to its fee. -/
def paidEnv : ChainEnv where
  toEnv := { nonceEnv with
    txHash := fun tx => tx.rctSignatures.txnFee.toNat
    txWeight := fun _ => 80
    now := 2000000 }
  fns := sourceFns fun _ _ _ => 1
  blockLonghash _ _ _ := some 0
  checkHash _ _ := true
  blockNeedsPow _ _ := true
  checkpoints := []
  blocksHashCheckWeight _ := 0
  prunedTxWeight _ := 80
  feeRate _ _ := 0
  keyRank _ := 0

def testnetNode (blocks : List BlockInfo) : Node where
  bc :=
    { db := { blocks }
      hardfork :=
        { heights := ForkTable.testnet
          currentForkIndex := ForkTable.testnet.indexAt blocks.length }
      currentBlockCumulWeightLimit := 600000 }
  pool := {}

def eightBlocks : Node :=
  { testnetNode ((List.range 8).map paidInfo) with
    bc := { (testnetNode ((List.range 8).map paidInfo)).bc with fixedDifficulty := 1 } }

variable {more : List Block} {n : ℕ}

def bulletproofTx : Transaction where
  version := 2
  unlockTime := 0
  vin := [.toKey 0 [10, 1, 1, 1, 1] 7]
  vout := [⟨0, .toKey 0⟩, ⟨0, .toKey 0⟩]
  extra := []
  rctSignatures := ⟨.bulletproof1Simple, 1000000000000, [0, 0], [⟨[0]⟩, ⟨[0]⟩], [], []⟩
  pruned := false

def bulletproofInfo : BlockInfo :=
  { paidInfo 560 with
    bl := paidBlock 560 560 560 (paidReward 560 + 1000000000000) [1000000000000]
    txs := [bulletproofTx]
    blockWeight := 160
    longTermBlockWeight := 160 }

end Nerva
