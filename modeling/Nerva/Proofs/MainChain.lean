import Nerva.MainChain
import Nerva.Proofs.Reward
import Nerva.Proofs.TxPool
import Nerva.Proofs.TxChecks

/-!
# What an accepted block has passed

`handle_block_to_main_chain` in three steps: the checks on the header, the transactions taken from
the pool one by one, and the coinbase.
-/

namespace Nerva

open Checks List

/-- Two chains that every check answers alike: the blocks, the fork version and the ring members
looked up ahead are the same. Caches, alternative blocks and votes may differ. -/
structure SameChain (bc bc' : Blockchain) : Prop where
  blocks : bc'.db.blocks = bc.db.blocks
  version : bc'.getCurrentHardForkVersion = bc.getCurrentHardForkVersion
  scanTable : bc'.scanTable = bc.scanTable

namespace SameChain

variable {env : Env} {bc bc' : Blockchain}

theorem cache (bc : Blockchain) (cache : DifficultyCache) :
    SameChain bc { bc with difficultyCache := cache } := ⟨rfl, rfl, rfl⟩

variable (h : SameChain bc bc')

include h

theorem height : bc'.db.height = bc.db.height := by
  unfold BlockchainDB.height
  rw [h.blocks]

theorem getOutputKey? (amount : UInt64) (v2 : Bool) :
    bc'.db.getOutputKey? env amount v2 = bc.db.getOutputKey? env amount v2 := by
  funext offset
  unfold BlockchainDB.getOutputKey? BlockchainDB.outputsOf
  rw [h.blocks]

theorem getOutputKeys (amount : UInt64) (v2 : Bool) (offsets : List UInt64) :
    bc'.db.getOutputKeys env amount v2 offsets = bc.db.getOutputKeys env amount v2 offsets := by
  induction offsets with
  | nil => rfl
  | cons offset rest ih => simp only [BlockchainDB.getOutputKeys, h.getOutputKey?, ih]

theorem isTxSpendtimeUnlocked (unlockTime : UInt64) :
    isTxSpendtimeUnlocked env bc'.db unlockTime = isTxSpendtimeUnlocked env bc.db unlockTime := by
  unfold Nerva.isTxSpendtimeUnlocked
  rw [h.height]

theorem visitOutputs (amount : UInt64) (v2 : Bool) :
    ∀ (offsets : List UInt64) (outputs : List OutputData),
      visitOutputs env bc' amount v2 outputs offsets = visitOutputs env bc amount v2 outputs offsets
  | [], _ => rfl
  | offset :: rest, outputs => by
    simp only [Nerva.visitOutputs, h.getOutputKey?, h.isTxSpendtimeUnlocked,
      visitOutputs amount v2 rest]

theorem checkTxInput (amount : UInt64) (keyOffsets : List UInt64)
    (kImage : KeyImage) (txPrefixHash : Hash) :
    checkTxInput env bc' amount keyOffsets kImage txPrefixHash =
      checkTxInput env bc amount keyOffsets kImage txPrefixHash := by
  simp only [Nerva.checkTxInput, scanOutputkeysForIndexes, ringOutputs, h.version, h.scanTable,
    h.getOutputKeys, h.visitOutputs]

theorem hasKeyImage (k : KeyImage) : bc'.db.hasKeyImage k = bc.db.hasKeyImage k := by
  unfold BlockchainDB.hasKeyImage
  rw [h.blocks]

/-- The inputs are checked against the chain only. -/
theorem checkTxInputs (tx : Transaction) : checkTxInputs env bc' tx = checkTxInputs env bc tx := by
  have hstep : checkInputsStep env bc' (env.txPrefixHash tx) =
      checkInputsStep env bc (env.txPrefixHash tx) := by
    funext acc txin
    cases txin with
    | toKey amount keyOffsets kImage =>
      simp only [checkInputsStep, h.version, h.hasKeyImage, h.checkTxInput]
    | _ => rfl
  simp only [Nerva.checkTxInputs, h.version, h.height, hstep]

theorem checkTxOutputs (tx : Transaction) :
    checkTxOutputs env bc' tx = checkTxOutputs env bc tx := by
  simp only [Nerva.checkTxOutputs, checkTxOutputsExceptSubgroup, checkTxRctType, h.version]

end SameChain

section Cache

variable {env : Env} {fns : DifficultyFns} {bc : Blockchain}

theorem getDifficultyForNextBlock_snd (env : Env) (fns : DifficultyFns) (bc : Blockchain) :
    ∃ cache, (getDifficultyForNextBlock env fns bc).2 = { bc with difficultyCache := cache } := by
  unfold getDifficultyForNextBlock
  simp only []
  split_ifs
  · exact ⟨bc.difficultyCache, rfl⟩
  · exact ⟨bc.difficultyCache, rfl⟩
  · exact ⟨bc.difficultyCache, rfl⟩
  · exact ⟨_, rfl⟩

/-- A second query gives the same difficulty. -/
theorem getDifficultyForNextBlock_again (env : Env) (fns : DifficultyFns) (bc : Blockchain) :
    (getDifficultyForNextBlock env fns (getDifficultyForNextBlock env fns bc).2).1 =
      (getDifficultyForNextBlock env fns bc).1 := by
  by_cases hfixed : bc.fixedDifficulty ≠ 0
  · simp [getDifficultyForNextBlock, hfixed]
  · by_cases htop : bc.db.topBlockHash env = bc.difficultyCache.difficultyForNextBlockTopHash
    · simp [getDifficultyForNextBlock, hfixed, htop]
    · simp [getDifficultyForNextBlock, hfixed, htop]

end Cache

/-- The transaction passes the checks on the chain. -/
structure ValidAt (env : Env) (bc : Blockchain) (e : PoolTx) : Prop where
  fresh : bc.db.txExists env e.id = false
  outputs : checkTxOutputs env bc e.tx = .ok ()
  inputs : ∃ height, checkTxInputs env bc e.tx = .ok height

theorem SameChain.validAt {env : Env} {bc bc' : Blockchain} {e : PoolTx} (h : SameChain bc bc')
    (hvalid : ValidAt env bc e) : ValidAt env bc' e where
  fresh := by
    unfold BlockchainDB.txExists
    rw [h.blocks]
    exact hvalid.fresh
  outputs := by rw [h.checkTxOutputs, hvalid.outputs]
  inputs := by rw [h.checkTxInputs]; exact hvalid.inputs

/-- The fees of some transactions, added up. -/
def addFees (fee : UInt64) (txs : List PoolTx) : UInt64 := txs.foldl (fun s e => s + e.info.fee) fee

/-- What has been taken once `es` have come out of the pool as well, and `left` is left. -/
def TakenTxs.after (t : TakenTxs) (es : List PoolTx) (left : TxPool) : TakenTxs where
  txs := t.txs ++ es
  pool := left
  feeSummary := addFees t.feeSummary es
  cumulativeWeight := t.cumulativeWeight + weightsOf es
  nPruned := t.nPruned + es.countP (·.info.pruned)

theorem TakenTxs.after_cons (t : TakenTxs) (e : PoolTx) (es : List PoolTx) (left left' : TxPool) :
    (t.after [e] left').after es left = t.after (e :: es) left := by
  simp only [after, append_assoc, singleton_append, addFees, foldl_cons, foldl_nil, weightsOf,
    foldr_cons, foldr_nil, countP_cons, countP_nil, mk.injEq, true_and]
  omega

section Taking

variable {env : Env} {ce : ChainEnv} {bc : Blockchain} {pool : TxPool} {b : Block}

theorem takeBlockTx_of_valid {t : TakenTxs} {e : PoolTx} {left : TxPool} (hvalid : ValidAt env bc e)
    (htake : t.pool.takeTx e.id = some (e, left)) :
    takeBlockTx env bc t e.id = .ok (t.after [e] left) := by
  obtain ⟨height, hin⟩ := hvalid.inputs
  unfold takeBlockTx
  rw [if_neg (by rw [hvalid.fresh]; exact Bool.false_ne_true), htake]
  simp only [hvalid.outputs, hin]
  cases hpruned : e.info.pruned <;> simp [TakenTxs.after, addFees, weightsOf, hpruned]

/-- Transactions of the pool that are valid are all taken. -/
theorem foldlM_takeBlockTx : ∀ (txs : List PoolTx) (t : TakenTxs),
    (∀ e ∈ txs, t.pool.find? e.id = some e) → (∀ e ∈ txs, ValidAt env bc e) →
    (txs.map (·.id)).Nodup →
    ∃ left, (txs.map (·.id)).foldlM (takeBlockTx env bc) t = .ok (t.after txs left) ∧
      ∀ k, left.find? k = if k ∈ txs.map (·.id) then none else t.pool.find? k
  | [], t, _, _, _ => ⟨t.pool, by simp [TakenTxs.after, addFees, weightsOf], by simp⟩
  | e :: txs, t, hfind, hvalid, hnodup => by
    rw [map_cons, nodup_cons] at hnodup
    obtain ⟨left, htake, hleft⟩ := TxPool.takeTx_of_find? (hfind e mem_cons_self)
    have hstep := takeBlockTx_of_valid (hvalid e mem_cons_self) htake
    have hrest : ∀ a ∈ txs, left.find? a.id = some a := by
      intro a ha
      have hne : a.id ≠ e.id := fun h => hnodup.1 (mem_map.mpr ⟨a, ha, h⟩)
      rw [hleft, if_neg hne]
      exact hfind a (mem_cons_of_mem _ ha)
    obtain ⟨left', hfold, hleft'⟩ := foldlM_takeBlockTx txs (t.after [e] left) hrest
      (fun a ha => hvalid a (mem_cons_of_mem _ ha)) hnodup.2
    refine ⟨left', ?_, fun k => ?_⟩
    · rw [map_cons, foldlM_cons, hstep, ← t.after_cons e txs left' left]
      exact hfold
    · refine (hleft' k).trans ?_
      simp only [TakenTxs.after, hleft]
      by_cases hk : k = e.id <;> by_cases hmem : k ∈ txs.map (·.id) <;> simp [hmem]

/-- A block of valid transactions is taken exactly when its coinbase is right. -/
theorem takeBlockTxs_isOk_iff {txs : List PoolTx} (hpos : 0 < bc.db.height)
    (hids : b.txHashes = txs.map (·.id))
    (hfind : ∀ e ∈ txs, pool.find? e.id = some e) (hvalid : ∀ e ∈ txs, ValidAt ce.toEnv bc e)
    (hnodup : (txs.map (·.id)).Nodup) (hpruned : ∀ e ∈ txs, e.info.pruned = false)
    (hspent : bc.db.addSpentKeys (txs.map (·.tx)) = true) (diffic : UInt64) :
    (∃ r, takeBlockTxs ce bc diffic pool b = .ok r) ↔
      ∃ reward, bc.validateMinerTransaction b (ce.txWeight b.minerTx + weightsOf txs)
        (addFees 0 txs) bc.db.generatedCoins bc.getCurrentHardForkVersion = some reward := by
  obtain ⟨left, hfold, -⟩ := foldlM_takeBlockTx txs
    { pool, cumulativeWeight := ce.txWeight b.minerTx } hfind hvalid hnodup
  have hcount : txs.countP (·.info.pruned) = 0 := by
    rw [countP_eq_zero]
    intro e he
    simp [hpruned e he]
  unfold takeBlockTxs
  rw [hids, hfold]
  simp only [TakenTxs.after, hcount]
  cases hv : bc.validateMinerTransaction b (ce.txWeight b.minerTx + weightsOf txs) (addFees 0 txs)
      bc.db.generatedCoins bc.getCurrentHardForkVersion with
  | none => simp [hv]
  | some reward =>
    obtain ⟨next, hnext⟩ :=
      getNextLongTermBlockWeight_isSome hpos (ce.txWeight b.minerTx + weightsOf txs)
    simp [hv, hnext, hspent, require]

theorem takeBlockTx_ok {t t' : TakenTxs} {id : Hash} (h : takeBlockTx env bc t id = .ok t') :
    ∃ e left, t.pool.takeTx id = some (e, left) ∧ ValidAt env bc e ∧ t' = t.after [e] left := by
  unfold takeBlockTx at h
  by_cases hfresh : bc.db.txExists env id = true
  · rw [if_pos hfresh] at h
    cases h
  · rw [if_neg hfresh] at h
    cases htake : t.pool.takeTx id with
    | none =>
      rw [htake] at h
      cases h
    | some r =>
      obtain ⟨e, left⟩ := r
      rw [htake] at h
      cases hout : checkTxOutputs env bc e.tx with
      | error flag => simp [hout] at h
      | ok _ =>
        cases hin : checkTxInputs env bc e.tx with
        | error flag => simp [hout, hin] at h
        | ok height =>
          simp only [hout, hin, Except.ok.injEq] at h
          have hid : e.id = id := (TxPool.takeTx_perm htake).2.1
          refine ⟨e, left, rfl, ⟨?_, hout, height, hin⟩, h.symm.trans ?_⟩
          · rw [hid]
            exact Bool.eq_false_iff.mpr hfresh
          · cases hpruned : e.info.pruned <;> simp [TakenTxs.after, addFees, weightsOf, hpruned]

/-- What has been taken was in the pool and is valid. -/
theorem foldlM_takeBlockTx_ok : ∀ {ids : List Hash} {t t' : TakenTxs},
    ids.foldlM (takeBlockTx env bc) t = .ok t' →
    ∃ es left, ids = es.map (·.id) ∧ (es.map (·.id)).Nodup ∧ (∀ e ∈ es, e ∈ t.pool.txs) ∧
      (∀ e ∈ es, ValidAt env bc e) ∧ t' = t.after es left
  | [], t, t', h => by
    simp only [foldlM_nil, pure_eq_ok] at h
    exact ⟨[], t.pool, rfl, nodup_nil, by simp, by simp,
      by simp [← h, TakenTxs.after, addFees, weightsOf]⟩
  | id :: ids, t, t', h => by
    rw [foldlM_cons, bind_eq_ok] at h
    obtain ⟨t₁, hstep, hrest⟩ := h
    obtain ⟨e, left₁, htake, hvalid, rfl⟩ := takeBlockTx_ok hstep
    obtain ⟨es, left, rfl, hnodup, hmem, hvalids, rfl⟩ := foldlM_takeBlockTx_ok hrest
    obtain ⟨hperm, hid, -⟩ := TxPool.takeTx_perm htake
    have hids : ((e :: left₁.txs).map (·.id)).Nodup := (hperm.map _).nodup_iff.mp t.pool.nodup
    rw [map_cons, nodup_cons] at hids
    refine ⟨e :: es, left, by rw [map_cons, hid], ?_, ?_, ?_, ?_⟩
    · rw [map_cons, nodup_cons]
      refine ⟨fun hin => hids.1 ?_, hnodup⟩
      obtain ⟨a, ha, hae⟩ := mem_map.mp hin
      exact mem_map.mpr ⟨a, hmem a ha, hae⟩
    · intro a ha
      rcases mem_cons.mp ha with rfl | ha
      · exact hperm.mem_iff.mpr mem_cons_self
      · exact hperm.mem_iff.mpr (mem_cons_of_mem _ (hmem a ha))
    · intro a ha
      rcases mem_cons.mp ha with rfl | ha
      · exact hvalid
      · exact hvalids a ha
    · exact t.after_cons e es left left₁

end Taking

/-- The weight that a block is stored with. -/
def blockWeightOf (ce : ChainEnv) (bc : Blockchain) (b : Block) (es : List PoolTx) : ℕ :=
  if 0 < es.countP (·.info.pruned) then ce.blocksHashCheckWeight bc.db.height
  else ce.txWeight b.minerTx + weightsOf es

/-- The block `b` with the pool transactions `es` passes the loop and the checks after it, and is
stored as `info`. -/
structure Stores (ce : ChainEnv) (bc : Blockchain) (diffic : UInt64) (b : Block) (es : List PoolTx)
    (info : BlockInfo) : Prop where
  ids : b.txHashes = es.map (·.id)
  nodup : (es.map (·.id)).Nodup
  valid : ∀ e ∈ es, ValidAt ce.toEnv bc e
  weighed : ¬(0 < es.countP (·.info.pruned) ∧ ce.blocksHashCheckWeight bc.db.height = 0)
  spent : bc.db.addSpentKeys (es.map (·.tx)) = true
  paid : ∃ reward next, bc.validateMinerTransaction b (blockWeightOf ce bc b es) (addFees 0 es)
      bc.db.generatedCoins bc.getCurrentHardForkVersion = some reward ∧
    bc.getNextLongTermBlockWeight (blockWeightOf ce bc b es) = some next ∧
    info = {
      bl := b
      txs := es.map (·.tx)
      blockWeight := blockWeightOf ce bc b es
      longTermBlockWeight := next.longTermBlockWeight
      cumulativeDifficulty :=
        ((bc.db.blocks.getLast?.map (·.cumulativeDifficulty)).getD 0) + diffic.toNat
      alreadyGeneratedCoins := computeGeneratedCoins reward bc.db.generatedCoins }

section Storing

variable {ce : ChainEnv} {bc bc' : Blockchain} {diffic : UInt64} {pool : TxPool} {b : Block}
  {es : List PoolTx} {info : BlockInfo}

section

variable (h : Stores ce bc diffic b es info)

include h

theorem Stores.bl : info.bl = b := by
  obtain ⟨reward, next, -, -, rfl⟩ := h.paid
  rfl

theorem Stores.cumulativeDifficulty :
    info.cumulativeDifficulty =
      ((bc.db.blocks.getLast?.map (·.cumulativeDifficulty)).getD 0) + diffic.toNat := by
  obtain ⟨reward, next, -, -, rfl⟩ := h.paid
  rfl

end

/-- What a block that is taken is stored as. -/
theorem takeBlockTxs_ok {left : TxPool} (h : takeBlockTxs ce bc diffic pool b = .ok (info, left)) :
    ∃ es t, b.txHashes.foldlM (takeBlockTx ce.toEnv bc)
        { pool, cumulativeWeight := ce.txWeight b.minerTx } = .ok t ∧
      t.txs = es ∧ t.pool = left ∧ (∀ e ∈ es, e ∈ pool.txs) ∧ Stores ce bc diffic b es info := by
  obtain ⟨t, hfold, h⟩ := bind_eq_ok.mp h
  obtain ⟨es, left', hids, hnodup, hmem, hvalid, ht⟩ := foldlM_takeBlockTx_ok hfold
  rw [TakenTxs.after] at ht
  obtain ⟨u, hweighed, h⟩ := bind_eq_ok.mp h
  rw [require_eq_ok] at hweighed
  have hpruned : t.nPruned = es.countP (·.info.pruned) := by rw [ht, Nat.zero_add]
  have hweight : (if decide (0 < t.nPruned) = true then ce.blocksHashCheckWeight bc.db.height
      else t.cumulativeWeight) = blockWeightOf ce bc b es := by
    rw [hpruned, ht]
    simp only [blockWeightOf, decide_eq_true_eq]
  have hfee : t.feeSummary = addFees 0 es := by rw [ht]
  have htxs : t.txs = es := by rw [ht, nil_append]
  rw [hweight, hfee, htxs] at h
  cases hv : bc.validateMinerTransaction b (blockWeightOf ce bc b es) (addFees 0 es)
      bc.db.generatedCoins bc.getCurrentHardForkVersion with
  | none => simp [hv] at h
  | some reward =>
    simp only [hv] at h
    cases hnext : bc.getNextLongTermBlockWeight (blockWeightOf ce bc b es) with
    | none => simp [hnext] at h
    | some next =>
      simp only [hnext] at h
      obtain ⟨u, hspent, h⟩ := bind_eq_ok.mp h
      rw [require_eq_ok] at hspent
      obtain ⟨rfl, rfl⟩ := Prod.mk.inj (Except.ok.inj h)
      refine ⟨es, t, hfold, htxs, rfl, hmem, hids, hnodup, hvalid, ?_, hspent, reward, next, hv,
        hnext, rfl⟩
      rw [hpruned, decide_eq_true_eq] at hweighed
      exact hweighed

end Storing

section Handling

variable {ce : ChainEnv} {node : Node} {b : Block}

/-- When a block is added to the main chain. -/
theorem handleBlockToMainChain_ok_iff :
    (node.handleBlockToMainChain ce b).1 = .ok () ↔
      node.bc.checkBlockLinks ce.toEnv b = .ok () ∧
      (getDifficultyForNextBlock ce.toEnv ce.fns node.bc).2.checkBlockWork ce b
        (getDifficultyForNextBlock ce.toEnv ce.fns node.bc).1 = .ok () ∧
      ∃ r, takeBlockTxs ce (getDifficultyForNextBlock ce.toEnv ce.fns node.bc).2
        (getDifficultyForNextBlock ce.toEnv ce.fns node.bc).1 node.pool b = .ok r := by
  unfold Node.handleBlockToMainChain
  cases hlinks : node.bc.checkBlockLinks ce.toEnv b with
  | error refusal => simp
  | ok _ =>
    generalize getDifficultyForNextBlock ce.toEnv ce.fns node.bc = r
    obtain ⟨diffic, bc⟩ := r
    simp only []
    cases hwork : bc.checkBlockWork ce b diffic with
    | error refusal => simp
    | ok _ =>
      cases htake : takeBlockTxs ce bc diffic node.pool b with
      | error r => simp
      | ok r => simp

end Handling

end Nerva
