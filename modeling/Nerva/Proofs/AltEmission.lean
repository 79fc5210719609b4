import Nerva.Proofs.AltBlocks
import Nerva.Proofs.RefusedBlock

/-!
# The emission recorded for alternative blocks

`handle_block_to_main_chain` adds the base reward to the coins generated so far,
`handle_alternative_block` all that the coinbase pays, fees included. Along a branch the two agree
as long as no block pays fees, and again once the supply is used up.
-/

namespace Nerva

open List

/-- When a fee does not change the coins recorded. -/
theorem computeGeneratedCoins_add_eq_iff (reward fee coins : UInt64) :
    computeGeneratedCoins (reward + fee) coins = computeGeneratedCoins reward coins ↔
      fee = 0 ∨ moneySupply - coins ≤ reward + fee ∧ moneySupply - coins ≤ reward := by
  -- a sum that stays below the supply is not the supply
  have hbelow : ∀ r, r < moneySupply - coins → coins + r ≠ moneySupply := by
    rintro r hlt heq
    rw [← heq, UInt64.add_comm, UInt64.add_sub_cancel] at hlt
    exact UInt64.lt_irrefl _ hlt
  unfold computeGeneratedCoins
  by_cases h₁ : reward + fee < moneySupply - coins
  · rw [if_pos h₁]
    by_cases h₂ : reward < moneySupply - coins
    · simp [if_pos h₂, UInt64.not_le.mpr h₁]
    · rw [if_neg h₂]
      have hne : fee ≠ 0 := fun h => h₂ (by rwa [h, UInt64.add_zero] at h₁)
      simp [hbelow _ h₁, hne, UInt64.not_le.mpr h₁]
  · rw [if_neg h₁]
    by_cases h₂ : reward < moneySupply - coins
    · rw [if_pos h₂]
      have hne : fee ≠ 0 := fun h => h₁ (by rwa [h, UInt64.add_zero])
      simp [(hbelow _ h₂).symm, hne, UInt64.not_le.mpr h₂]
    · simp [UInt64.not_lt.mp h₁, UInt64.not_lt.mp h₂]

theorem computeGeneratedCoins_pos {reward coins : UInt64} (h : 0 < coins) :
    0 < computeGeneratedCoins reward coins := by
  unfold computeGeneratedCoins
  split_ifs with hlt
  · have hsupply : moneySupply.toNat = 2 ^ 64 - 1 := rfl
    have hcoins := coins.toNat_lt
    have hle : coins ≤ moneySupply := UInt64.le_iff_toNat_le.mpr (by omega)
    rw [UInt64.lt_iff_toNat_lt, UInt64.toNat_sub_of_le _ _ hle] at hlt
    rw [UInt64.lt_iff_toNat_lt] at h ⊢
    rw [UInt64.toNat_add]
    omega
  · decide

def TxPool.feesOf (pool : TxPool) (b : Block) : UInt64 :=
  addFees 0 (b.txHashes.filterMap pool.find?)

/-- A block checked as an alternative by the node `alt`, and added to the main chain of the node
`main`. -/
structure BranchStep where
  alt : Node
  main : Node
  after : Node
  b : Block
  candidate : AltCandidate
  info : BlockInfo

namespace BranchStep

/-- The fees add nothing to the coins generated: there are none, or the supply is used up with and
without them. -/
def FeesIgnored (s : BranchStep) : Prop :=
  let fees := s.main.pool.feesOf s.b
  let left := moneySupply - s.main.bc.db.generatedCoins
  fees = 0 ∨ left ≤ s.b.minerTx.moneyOut ∧ left ≤ s.b.minerTx.moneyOut - fees

instance (s : BranchStep) : Decidable s.FeesIgnored := by
  unfold FeesIgnored
  infer_instance

end BranchStep

/-- The blocks of an alternative chain above `base`, lowest first, each recorded by
`handle_alternative_block` and by `handle_block_to_main_chain` on the same blocks. -/
structure Branch (ce : ChainEnv) (base : List BlockInfo) (steps : List BranchStep) : Prop where
  emitted : 0 < ({ blocks := base } : BlockchainDB).generatedCoins
  checked : ∀ s ∈ steps, s.alt.forgetWindow.bc.checkAlternativeBlock ce s.alt.pool s.b =
    .ok (some s.candidate)
  added : ∀ s ∈ steps, Accepted ce s.main s.b s.info s.after
  below : ∀ i s, steps[i]? = some s → s.candidate.below = (steps.take i).map (·.candidate.bei)
  chain : ∀ i s, steps[i]? = some s → s.main.bc.db.blocks = base ++ (steps.take i).map (·.info)
  split : ∀ s, steps[0]? = some s → ∃ h, s.alt.bc.db.getBlockHeight ce.toEnv s.b.prevId = some h ∧
    s.alt.bc.db.blocks.take (h + 1) = base

section Steps

variable {ce : ChainEnv} {base : List BlockInfo} {steps : List BranchStep} {s : BranchStep}

/-- The main chain's node adds the base reward, which is what the coinbase pays less the fees. -/
theorem Accepted.coins {node node' : Node} {b : Block} {info : BlockInfo}
    (h : Accepted ce node b info node') :
    ∃ reward, info.alreadyGeneratedCoins = computeGeneratedCoins reward node.bc.db.generatedCoins ∧
      (0 < node.bc.db.generatedCoins → b.minerTx.moneyOut = reward + node.pool.feesOf b) := by
  obtain ⟨es, hmem, hstores⟩ := h.stores
  obtain ⟨reward, next, hv, -, rfl⟩ := hstores.paid
  rw [query_db] at hv ⊢
  have hfound : b.txHashes.filterMap node.pool.find? = es := by
    rw [hstores.ids, filterMap_map]
    conv_rhs => rw [← filterMap_some (l := es)]
    refine filterMap_congr fun e he => ?_
    exact TxPool.find?_eq_some_iff.mpr ⟨hmem e he, rfl⟩
  refine ⟨reward, by dsimp only, fun hpos => ?_⟩
  unfold TxPool.feesOf
  rw [hfound]
  unfold Blockchain.validateMinerTransaction at hv
  split at hv
  · cases hv
  · split at hv
    · cases hv
    · split at hv
      · cases hv
      · rename_i hpaid
        rw [← Option.some.inj hv]
        exact (not_not.mp fun hne => hpaid ⟨hne, hpos⟩).symm

namespace Branch

theorem generatedCoins_pos (h : Branch ce base steps) :
    ∀ (i : ℕ) (s : BranchStep), steps[i]? = some s → 0 < s.main.bc.db.generatedCoins
  | 0, s, hs => by
    have hchain := h.chain 0 s hs
    rw [take_zero, map_nil, append_nil] at hchain
    unfold BlockchainDB.generatedCoins
    rw [hchain]
    exact h.emitted
  | i + 1, s, hs => by
    obtain ⟨t, ht⟩ := Lists.exists_getElem?_pred hs
    obtain ⟨reward, hcoins, -⟩ := (h.added t (mem_of_getElem? ht)).coins
    have hchain := h.chain (i + 1) s hs
    rw [take_add_one, ht] at hchain
    have hlast : s.main.bc.db.generatedCoins = t.info.alreadyGeneratedCoins := by
      simp [BlockchainDB.generatedCoins, hchain]
    rw [hlast, hcoins]
    exact computeGeneratedCoins_pos (h.generatedCoins_pos i t ht)

/-- The coins the two nodes start from agree at the split, and where they agreed one block below. -/
theorem parent_eq (h : Branch ce base steps) {i : ℕ} (hs : steps[i]? = some s)
    (hprev : ∀ j t, i = j + 1 → steps[j]? = some t →
      t.candidate.bei.alreadyGeneratedCoins = t.info.alreadyGeneratedCoins) :
    (s.alt.forgetWindow.bc.altParent ce.toEnv s.candidate.below s.b.prevId).2.2 =
      s.main.bc.db.generatedCoins := by
  have hbelow := h.below i s hs
  have hchain := h.chain i s hs
  cases i with
  | zero =>
    obtain ⟨height, hheight, hbase⟩ := h.split s hs
    obtain ⟨info, hinfo⟩ : ∃ info, s.alt.bc.db.blocks[height]? = some info :=
      ⟨_, getElem?_eq_getElem (findIdx?_eq_some_iff_getElem.mp hheight).1⟩
    rw [take_add_one] at hbase
    rw [take_zero, map_nil, ← hbase] at hchain
    have hforget : s.alt.forgetWindow.bc.db = s.alt.bc.db := rfl
    simp [Blockchain.altParent, BlockchainDB.generatedCoins, hbelow, hchain, hforget, hheight,
      hinfo]
  | succ j =>
    obtain ⟨t, ht⟩ := Lists.exists_getElem?_pred hs
    rw [take_add_one, ht] at hbelow hchain
    simp [Blockchain.altParent, BlockchainDB.generatedCoins, hbelow, hchain, hprev j t rfl ht]

/-- One block of a branch is recorded alike exactly when its fees do not count. -/
theorem coins_eq_iff (h : Branch ce base steps) {i : ℕ} (hs : steps[i]? = some s)
    (hprev : ∀ j t, i = j + 1 → steps[j]? = some t →
      t.candidate.bei.alreadyGeneratedCoins = t.info.alreadyGeneratedCoins) :
    s.candidate.bei.alreadyGeneratedCoins = s.info.alreadyGeneratedCoins ↔ s.FeesIgnored := by
  have hmem := mem_of_getElem? hs
  obtain ⟨-, -, -, -, -, -, -, halt, -⟩ := checkAlternativeBlock_some (h.checked s hmem)
  obtain ⟨reward, hmain, hpaid⟩ := (h.added s hmem).coins
  rw [halt, hmain, h.parent_eq hs hprev, hpaid (h.generatedCoins_pos i s hs),
    computeGeneratedCoins_add_eq_iff, BranchStep.FeesIgnored, hpaid (h.generatedCoins_pos i s hs),
    UInt64.add_sub_cancel]

end Branch

/-- Alternative and main-chain handling record the same coins for every block of a branch exactly
when the fees add nothing in any of them. -/
theorem branch_coins_eq_iff (ce : ChainEnv) (base : List BlockInfo) (steps : List BranchStep)
    (h : Branch ce base steps) :
    (∀ s ∈ steps, s.candidate.bei.alreadyGeneratedCoins = s.info.alreadyGeneratedCoins) ↔
      ∀ s ∈ steps, s.FeesIgnored := by
  constructor
  · intro heq s hs
    obtain ⟨i, hi⟩ := mem_iff_getElem?.mp hs
    exact (h.coins_eq_iff hi fun _ t _ ht => heq t (mem_of_getElem? ht)).mp (heq s hs)
  · intro hfees s hs
    obtain ⟨i, hi⟩ := mem_iff_getElem?.mp hs
    -- upwards from the split, each block starts from the coins of the one below
    induction i generalizing s with
    | zero => exact (h.coins_eq_iff hi fun _ _ hj => absurd hj (by omega)).mpr (hfees s hs)
    | succ i ih =>
      refine (h.coins_eq_iff hi fun j t hj ht => ?_).mpr (hfees s hs)
      obtain rfl : i = j := by omega
      exact ih t (mem_of_getElem? ht) ht

end Steps

def borromeanTx : Transaction :=
  { bulletproofTx with rctSignatures := ⟨.simple, 1000000000000, [0, 0], [], [], []⟩ }

def feeNode : Node :=
  { trackedNode 40 with pool := { txs := [poolTxOf borromeanTx], nodup := nodup_singleton _ } }

/-- The coinbase pays the reward and the fee. -/
def feeStep (info : BlockInfo) : BranchStep :=
  let b := paidBlock 40 1040 40 (paidReward 40 + 1000000000000) [1000000000000]
  { alt := testnetNode ((range 41).map paidInfo)
    main := feeNode
    after := (feeNode.handleBlockToMainChain paidEnv b).2
    b := b
    candidate := ⟨[], ⟨b, 40, 0, 41, minedCoins 40 + 1000000000000⟩, false⟩
    info := info }

set_option maxRecDepth 10000 in
theorem exists_feeStep_branch :
    ∃ info, Branch paidEnv ((range 40).map paidInfo) [feeStep info] := by
  have hadd : (feeNode.handleBlockToMainChain paidEnv (feeStep (paidInfo 0)).b).1 = .ok () := by
    decide
  have hcheck : (feeStep (paidInfo 0)).alt.forgetWindow.bc.checkAlternativeBlock paidEnv {}
      (feeStep (paidInfo 0)).b = .ok (some (feeStep (paidInfo 0)).candidate) := by
    decide +kernel
  obtain ⟨info, hinfo⟩ := exists_accepted (eq_mk_of_fst hadd)
  have hfirst : ∀ (i : ℕ) (s : BranchStep), [feeStep info][i]? = some s →
      i = 0 ∧ s = feeStep info := by
    intro i s hs
    rw [getElem?_singleton] at hs
    split at hs
    · exact ⟨‹_›, (Option.some.inj hs).symm⟩
    · cases hs
  refine ⟨info, by decide, ?_, ?_, ?_, ?_, ?_⟩
  · intro s hs
    rw [mem_singleton.mp hs]
    exact hcheck
  · intro s hs
    rw [mem_singleton.mp hs]
    exact hinfo
  · intro i s hs
    obtain ⟨rfl, rfl⟩ := hfirst i s hs
    rfl
  · intro i s hs
    obtain ⟨rfl, rfl⟩ := hfirst i s hs
    exact (append_nil _).symm
  · intro s hs
    rw [(hfirst 0 s hs).2]
    exact ⟨39, rfl, rfl⟩

theorem branch_coins_eq_iff_fee :
    ∃ info, Branch paidEnv ((range 40).map paidInfo) [feeStep info] ∧
      ((∀ s ∈ [feeStep info],
          s.candidate.bei.alreadyGeneratedCoins = s.info.alreadyGeneratedCoins) ↔
        ∀ s ∈ [feeStep info], s.FeesIgnored) := by
  obtain ⟨info, h⟩ := exists_feeStep_branch
  exact ⟨info, h, branch_coins_eq_iff paidEnv _ _ h⟩

set_option maxRecDepth 10000 in
/-- With a fee of one coin the alternative block records one coin more. -/
theorem feeStep_coins_ne :
    ∃ info, Branch paidEnv ((range 40).map paidInfo) [feeStep info] ∧
      ¬∀ s ∈ [feeStep info],
        s.candidate.bei.alreadyGeneratedCoins = s.info.alreadyGeneratedCoins := by
  obtain ⟨info, h⟩ := exists_feeStep_branch
  have hpaid : ¬(feeStep (paidInfo 0)).FeesIgnored := by decide
  refine ⟨info, h, fun heq => hpaid ?_⟩
  exact (h.coins_eq_iff (i := 0) rfl fun _ _ hj => absurd hj (by omega)).mp (heq _ mem_cons_self)

end Nerva
