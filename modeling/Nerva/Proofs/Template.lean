import Nerva.Template
import Nerva.Proofs.MainChain
import Nerva.Proofs.Reward
import Nerva.Proofs.Timestamp

/-!
# Every template can be mined, except for two medians

A template and `handle_block_to_main_chain` meet the same chain and pool by different code. They
part in two places: the timestamp falls back to a median that the rule may refuse, and the reward is
taken at the median of the weight limit where validation takes that of the last blocks.
-/

namespace Nerva

open Checks List Blockchain

/-- The pools hold the same transactions, with the same weights and fees. -/
structure SamePool (pool pool' : TxPool) : Prop where
  txs : ∃ g : PoolTx → TxpoolTxMeta, pool'.txs = pool.txs.map (fun e => { e with info := g e }) ∧
    ∀ e ∈ pool.txs, (g e).weight = e.info.weight ∧ (g e).fee = e.info.fee ∧
      (g e).pruned = e.info.pruned
  cookie : pool'.cookie = pool.cookie

namespace SamePool

variable {pool pool' : TxPool}

theorem refl (pool : TxPool) : SamePool pool pool :=
  ⟨⟨fun e => e.info, by simp, fun _ _ => ⟨rfl, rfl, rfl⟩⟩, rfl⟩

theorem update (h : SamePool pool pool') {e : PoolTx} (he : e ∈ pool.txs) {info : TxpoolTxMeta}
    (hweight : info.weight = e.info.weight) (hfee : info.fee = e.info.fee)
    (hpruned : info.pruned = e.info.pruned) : SamePool pool (pool'.updateTxpoolTx e.id info) := by
  obtain ⟨⟨g, htxs, hg⟩, hcookie⟩ := h
  refine ⟨⟨fun a => if a.id = e.id then info else g a, ?_, fun a ha => ?_⟩, hcookie⟩
  · refine (congrArg (List.map _) htxs).trans ?_
    rw [map_map]
    rfl
  · by_cases hid : a.id = e.id
    · simp only [if_pos hid]
      have hfind := TxPool.find?_eq_some_iff.mpr ⟨ha, hid⟩
      rw [TxPool.find?_eq_some_iff.mpr ⟨he, rfl⟩, Option.some.injEq] at hfind
      subst hfind
      exact ⟨hweight, hfee, hpruned⟩
    · simp only [if_neg hid]
      exact hg a ha

end SamePool

section Filling

variable {me : MinerEnv} {bc : Blockchain} {pool : TxPool} {e : PoolTx} {env : Env}

theorem isTransactionReadyToGo_info (env : Env) (bc : Blockchain) (e : PoolTx) :
    (isTransactionReadyToGo env bc e).2.weight = e.info.weight ∧
      (isTransactionReadyToGo env bc e).2.fee = e.info.fee ∧
      (isTransactionReadyToGo env bc e).2.pruned = e.info.pruned := by
  unfold isTransactionReadyToGo
  by_cases hknown : e.info.knownToFail env bc
  · simp [hknown]
  · cases checkTxInputsFor env bc e.tx with
    | none => simp [hknown]
    | some r =>
      cases checkTxOutputsExceptSubgroup env bc e.tx with
      | error _ => simp [hknown]
      | ok _ => by_cases hspent : bc.haveTxKeyimgesAsSpent e.tx <;> simp [hknown, hspent]

/-- A transaction that is ready spends nothing that is spent. -/
theorem isTransactionReadyToGo_unspent (h : (isTransactionReadyToGo env bc e).1 = true) :
    (∀ txin ∈ e.tx.vin, txin.isToKey = true) ∧
      ∀ k ∈ e.tx.keyImages, bc.db.hasKeyImage k = false := by
  have hspent : bc.haveTxKeyimgesAsSpent e.tx = false := by
    by_contra hspent
    rw [Bool.not_eq_false] at hspent
    unfold isTransactionReadyToGo at h
    by_cases hknown : e.info.knownToFail env bc
    · simp [hknown] at h
    · cases hin : checkTxInputsFor env bc e.tx with
      | none => simp [hknown, hin] at h
      | some r =>
        cases hout : checkTxOutputsExceptSubgroup env bc e.tx with
        | error _ => simp [hknown, hin, hout] at h
        | ok _ => simp [hknown, hin, hout, hspent] at h
  unfold haveTxKeyimgesAsSpent at hspent
  rw [any_eq_false] at hspent
  refine ⟨fun txin htxin => ?_, fun k hk => ?_⟩
  · have hnot := hspent txin htxin
    cases txin with
    | toKey => rfl
    | _ => simp [TxIn.spent] at hnot
  · obtain ⟨txin, htxin, hkey⟩ := mem_filterMap.mp hk
    have hnot := hspent txin htxin
    cases txin with
    | toKey amount offsets k' =>
      simp only [TxIn.keyImage?, Option.some.injEq] at hkey
      subst hkey
      simpa [TxIn.spent] using hnot
    | _ => simp [TxIn.keyImage?] at hkey

theorem disjoint_of_haveKeyImages {kImages : List KeyImage} : ∀ {vin : List TxIn},
    (∀ txin ∈ vin, txin.isToKey = true) → haveKeyImages kImages vin = false →
      List.Disjoint kImages (vin.filterMap TxIn.keyImage?)
  | [], _, _ => by simp
  | .toKey amount offsets k :: rest, htoKey, h => by
    simp only [haveKeyImages, Bool.or_eq_false_iff] at h
    have hrest := disjoint_of_haveKeyImages (fun x hx => htoKey x (mem_cons_of_mem _ hx)) h.2
    have hk : k ∉ kImages := by simpa using h.1
    exact disjoint_cons_right.mpr ⟨hk, hrest⟩
  | .gen _ :: _, htoKey, _ => by simpa [TxIn.isToKey] using htoKey _ mem_cons_self
  | .toScript :: _, htoKey, _ => by simpa [TxIn.isToKey] using htoKey _ mem_cons_self
  | .toScripthash :: _, htoKey, _ => by simpa [TxIn.isToKey] using htoKey _ mem_cons_self

/-- The transactions of the pool are valid on the chain. -/
structure PoolValid (env : Env) (bc : Blockchain) (pool : TxPool) : Prop where
  pruned : ∀ e ∈ pool.txs, e.info.pruned = e.tx.pruned
  valid : ∀ e ∈ pool.txs, ValidAt env bc e

/-- What the loop has gathered is the transactions `picks` of the pool. -/
structure Gathered (bc : Blockchain) (pool : TxPool) (picks : List PoolTx) (f : Fill) : Prop where
  ids : f.txHashes = picks.map (·.id)
  weight : f.totalWeight = weightsOf picks
  fee : f.fee = addFees 0 picks
  kImages : f.kImages = picks.flatMap (·.tx.keyImages)
  unpruned : ∀ e ∈ picks, e.info.pruned = false
  nodup : f.kImages.Nodup
  unspent : ∀ k ∈ f.kImages, bc.db.hasKeyImage k = false
  samePool : SamePool pool f.pool

/-- One more transaction is taken, or passed over. -/
theorem Gathered.fillReady (hpool : PoolValid me.toEnv bc pool) {picks : List PoolTx} {f : Fill}
    (h : Gathered bc pool picks f) (he : e ∈ pool.txs) (hpruned : e.info.pruned = false)
    (coinbase : UInt64) :
    Gathered bc pool picks (fillReady me bc f e coinbase) ∨
      Gathered bc pool (picks ++ [e]) (fillReady me bc f e coinbase) := by
  obtain ⟨hweight, hfee, hpr⟩ := isTransactionReadyToGo_info me.toEnv bc e
  have hsame := h.samePool.update he hweight hfee hpr
  unfold Nerva.fillReady
  simp only []
  split_ifs with hready
  · obtain ⟨hgo, hkeys⟩ := Bool.and_eq_true_iff.mp hready
    obtain ⟨htoKey, hunspent⟩ := isTransactionReadyToGo_unspent hgo
    have hdisjoint := disjoint_of_haveKeyImages htoKey (by simpa using hkeys)
    obtain ⟨height, hin⟩ := (hpool.valid e he).inputs
    have hown : e.tx.keyImages.Nodup := ((checkTxInputs_ok_iff
      ((hpool.pruned e he).symm.trans hpruned)).mp hin).1.sorted.imp fun h => Nat.ne_of_gt h
    refine .inr ⟨?_, ?_, ?_, ?_, ?_, ?_, ?_, hsame⟩
    · simp [h.ids]
    · rw [weightsOf_append, ← h.weight]
      rfl
    · simp [h.fee, addFees]
    · simp [h.kImages]
    · intro a ha
      rcases mem_append.mp ha with ha | ha
      · exact h.unpruned a ha
      · rw [mem_singleton.mp ha]
        exact hpruned
    · exact h.nodup.append hown hdisjoint
    · intro k hk
      rcases mem_append.mp hk with hk | hk
      · exact h.unspent k hk
      · exact hunspent k hk
  · exact .inl ⟨h.ids, h.weight, h.fee, h.kImages, h.unpruned, h.nodup, h.unspent, hsame⟩

theorem Gathered.fillFrom (hpool : PoolValid me.toEnv bc pool) (medianWeight : ℕ) (coins : UInt64)
    (version : ℕ) : ∀ {rest picks : List PoolTx} {f : Fill}, (∀ e ∈ rest, e ∈ pool.txs) →
      Gathered bc pool picks f → ∃ more, more.Sublist rest ∧
        Gathered bc pool (picks ++ more) (fillFrom me bc medianWeight coins version rest f)
  | [], picks, f, _, h => ⟨[], .slnil, by simpa [Nerva.fillFrom] using h⟩
  | e :: rest, picks, f, hrest, h => by
    have hrest' : ∀ a ∈ rest, a ∈ pool.txs := fun a ha => hrest a (mem_cons_of_mem _ ha)
    have hskip : ∀ {f'}, Gathered bc pool picks f' → ∃ more, more.Sublist (e :: rest) ∧
        Gathered bc pool (picks ++ more)
          (Nerva.fillFrom me bc medianWeight coins version rest f') := by
      intro f' h'
      obtain ⟨more, hsub, hg⟩ := Gathered.fillFrom hpool medianWeight coins version hrest' h'
      exact ⟨more, hsub.cons e, hg⟩
    unfold Nerva.fillFrom
    split_ifs with hskips hstop
    · exact hskip h
    · exact ⟨[], nil_sublist _, by simpa using h⟩
    · have hpruned : e.info.pruned = false := by
        simp only [Fill.skips, Bool.not_eq_true, Bool.or_eq_false_iff] at hskips
        exact hskips.1
      cases hc : coinbaseWith me medianWeight coins version f e.info with
      | none => exact hskip h
      | some coinbase =>
        rcases h.fillReady hpool (hrest e mem_cons_self) hpruned coinbase with hg | hg
        · exact hskip hg
        · obtain ⟨more, hsub, hg⟩ := Gathered.fillFrom hpool medianWeight coins version hrest' hg
          exact ⟨e :: more, hsub.cons_cons e, by simpa using hg⟩

/-- The template gathers transactions of the pool that can be mined together. -/
theorem fillBlockTemplate_gathered (hpool : PoolValid me.toEnv bc pool) (medianWeight : ℕ)
    (coins : UInt64) (version : ℕ) : ∃ picks, picks.Sublist pool.txs ∧
      Gathered bc pool picks (fillBlockTemplate me bc pool medianWeight coins version) := by
  have hstart : Gathered bc pool [] { bestCoinbase :=
      (getBlockReward medianWeight 0 coins version).getD 0, pool } :=
    ⟨rfl, rfl, rfl, rfl, by simp, nodup_nil, by simp, SamePool.refl pool⟩
  exact Gathered.fillFrom hpool medianWeight coins version (fun _ => id) hstart

end Filling

section Coinbase

variable {env : Env} {me : MinerEnv} {txsWeight height : ℕ} {tx : Transaction}

theorem fitCoinbase_fits {cumulativeWeight : ℕ} {minerTx fitted : Transaction}
    (h : fitCoinbase env txsWeight cumulativeWeight minerTx = .fits fitted) :
    cumulativeWeight = txsWeight + env.txWeight fitted ∧
      ∃ extra, fitted = { minerTx with extra } := by
  unfold fitCoinbase at h
  simp only [] at h
  split_ifs at h with hheavy hpadded hgrown hshorter
  · cases h
    exact ⟨hpadded, _, rfl⟩
  · cases h
    exact ⟨hshorter, _, rfl⟩

/-- The coinbase was built for the weight that the block has with it. -/
theorem tryCoinbase_some {construct : ℕ → ℕ → Option Transaction} :
    ∀ {fuel attempt cumulativeWeight : ℕ},
    tryCoinbase env txsWeight construct fuel attempt cumulativeWeight = some tx →
      ∃ attempt minerTx extra, construct attempt (txsWeight + env.txWeight tx) = some minerTx ∧
        tx = { minerTx with extra }
  | 0, _, _, h => by simp [tryCoinbase] at h
  | fuel + 1, attempt, cumulativeWeight, h => by
    unfold tryCoinbase at h
    cases hmake : construct attempt cumulativeWeight with
    | none => simp [hmake] at h
    | some minerTx =>
      simp only [hmake] at h
      cases hfit : fitCoinbase env txsWeight cumulativeWeight minerTx with
      | fits fitted =>
        simp only [hfit, Option.some.injEq] at h
        subst h
        obtain ⟨hweight, extra, hextra⟩ := fitCoinbase_fits hfit
        exact ⟨attempt, minerTx, extra, by rw [← hweight, hmake], hextra⟩
      | again heavier =>
        simp only [hfit] at h
        exact tryCoinbase_some h
      | failed => simp [hfit] at h

theorem constructMinerTx_some {attempt medianWeight weight version : ℕ} {coins fee : UInt64}
    {address : AccountPublicAddress} {exNonce : Blob}
    (h : constructMinerTx me attempt height medianWeight coins weight fee address exNonce version =
      some tx) :
    ∃ reward key, getBlockReward medianWeight weight coins version = some reward ∧
      tx.vin = [.gen height] ∧ tx.vout = [⟨reward + fee, .toKey key⟩] ∧
      tx.unlockTime = UInt64.ofNat (height + coinbaseUnlockWindow version) := by
  simp only [constructMinerTx, Option.bind_eq_bind, Option.bind_eq_some_iff, Option.pure_def,
    Option.some.injEq] at h
  obtain ⟨extra, -, reward, hreward, key, -, rfl⟩ := h
  exact ⟨reward, key, hreward, rfl, rfl, rfl⟩

theorem prevalidateMinerTransaction_of_singleton {b : Block} {o : TxOut}
    (hvin : b.minerTx.vin = [.gen height]) (hvout : b.minerTx.vout = [o])
    (hunlock : b.minerTx.unlockTime = UInt64.ofNat (height + coinbaseUnlockWindow b.majorVersion)) :
    prevalidateMinerTransaction b height = true := by
  simp [prevalidateMinerTransaction, checkOutsOverflow, hvin, hvout, hunlock, moneyOverflows]

end Coinbase

/-- What every template is, whatever its timestamp: the transactions `picks` of the pool under a
coinbase that claims the limit's reward at the weight of the block. -/
structure Assembled (me : MinerEnv) (bc : Blockchain) (pool : TxPool) (t : BlockTemplate)
    (picks : List PoolTx) (reward : UInt64) : Prop where
  majorVersion : t.block.majorVersion = bc.hardfork.getCurrentVersion
  minorVersion : t.block.minorVersion = bc.hardfork.getIdealVersion
  prevId : t.block.prevId = bc.db.topBlockHash me.toEnv
  diffic : t.diffic = (getDifficultyForNextBlock me.toEnv me.fns bc).1
  diffic_ne : t.diffic ≠ 0
  coinbase : prevalidateMinerTransaction t.block bc.db.height = true
  ids : t.block.txHashes = picks.map (·.id)
  nodup : (picks.map (·.id)).Nodup
  found : ∀ e ∈ picks, pool.find? e.id = some e
  unpruned : ∀ e ∈ picks, e.info.pruned = false
  unspent : bc.db.addSpentKeys (picks.map (·.tx)) = true
  rewarded : getBlockReward (bc.currentBlockCumulWeightLimit / 2)
    (me.txWeight t.block.minerTx + weightsOf picks) bc.db.generatedCoins
    bc.getCurrentHardForkVersion = some reward
  vout : ∃ key, t.block.minerTx.vout = [⟨reward + addFees 0 picks, .toKey key⟩]

/-- The chain after difficulty queries. -/
structure Requeried (env : Env) (fns : DifficultyFns) (bc bc' : Blockchain) : Prop where
  cache : ∃ cache, bc' = { bc with difficultyCache := cache }
  diffic : (getDifficultyForNextBlock env fns bc').1 = (getDifficultyForNextBlock env fns bc).1

section Templates

variable {me : MinerEnv} {bc bc' : Blockchain} {pool pool' : TxPool} {t : BlockTemplate}
  {picks : List PoolTx} {reward : UInt64}

theorem Requeried.refl (env : Env) (fns : DifficultyFns) (bc : Blockchain) :
    Requeried env fns bc bc := ⟨⟨bc.difficultyCache, rfl⟩, rfl⟩

theorem Requeried.query (env : Env) (fns : DifficultyFns) (bc : Blockchain) :
    Requeried env fns bc (getDifficultyForNextBlock env fns bc).2 :=
  ⟨getDifficultyForNextBlock_snd env fns bc, getDifficultyForNextBlock_again env fns bc⟩

theorem Requeried.sameChain (h : Requeried me.toEnv me.fns bc bc') : SameChain bc bc' := by
  obtain ⟨⟨cache, rfl⟩, -⟩ := h
  exact SameChain.cache bc cache

section

variable (h : Assembled me bc pool t picks reward)

include h

theorem Assembled.requeried (hquery : Requeried me.toEnv me.fns bc bc') :
    Assembled me bc' pool t picks reward := by
  obtain ⟨⟨cache, rfl⟩, hdiffic⟩ := hquery
  exact { h with diffic := h.diffic.trans hdiffic.symm }

theorem Assembled.timestamp (timestamp : UInt64) :
    Assembled me bc pool { t with block := { t.block with timestamp } } picks reward :=
  { h with }

theorem Assembled.samePool (hsame : SamePool pool pool') :
    ∃ picks', Assembled me bc pool' t picks' reward := by
  obtain ⟨⟨g, htxs, hg⟩, -⟩ := hsame
  have hmem : ∀ e ∈ picks, e ∈ pool.txs :=
    fun e he => (TxPool.find?_eq_some_iff.mp (h.found e he)).1
  have hids : (picks.map fun e => ({ e with info := g e } : PoolTx)).map (·.id) =
      picks.map (·.id) := by rw [map_map]; rfl
  have htx : (picks.map fun e => ({ e with info := g e } : PoolTx)).map (·.tx) =
      picks.map (·.tx) := by rw [map_map]; rfl
  have hweight : weightsOf (picks.map fun e => ({ e with info := g e } : PoolTx)) =
      weightsOf picks := by
    unfold weightsOf
    rw [foldr_map]
    exact foldr_ext _ _ _ fun e he s => by simp only [(hg e (hmem e he)).1]
  have hfee : addFees 0 (picks.map fun e => ({ e with info := g e } : PoolTx)) =
      addFees 0 picks := by
    unfold addFees
    rw [foldl_map]
    exact foldl_ext _ _ _ fun s e he => by simp only [(hg e (hmem e he)).2.1]
  refine ⟨picks.map fun e => { e with info := g e }, { h with
    ids := h.ids.trans hids.symm
    nodup := hids ▸ h.nodup
    found := ?_, unpruned := ?_
    unspent := htx ▸ h.unspent
    rewarded := hweight ▸ h.rewarded
    vout := hfee ▸ h.vout }⟩
  · intro a ha
    obtain ⟨e, he, rfl⟩ := mem_map.mp ha
    exact TxPool.find?_eq_some_iff.mpr ⟨htxs ▸ mem_map.mpr ⟨e, hmem e he, rfl⟩, rfl⟩
  · intro a ha
    obtain ⟨e, he, rfl⟩ := mem_map.mp ha
    exact (hg e (hmem e he)).2.2.trans (h.unpruned e he)

end

theorem PoolValid.samePool (h : PoolValid me.toEnv bc pool) (hsame : SamePool pool pool') :
    PoolValid me.toEnv bc pool' := by
  obtain ⟨⟨g, htxs, hg⟩, -⟩ := hsame
  have hmem : ∀ a ∈ pool'.txs, ∃ e ∈ pool.txs, a = { e with info := g e } := by
    intro a ha
    rw [htxs] at ha
    obtain ⟨e, he, rfl⟩ := mem_map.mp ha
    exact ⟨e, he, rfl⟩
  constructor
  · intro a ha
    obtain ⟨e, he, rfl⟩ := hmem a ha
    exact (hg e he).2.2.trans (h.pruned e he)
  · intro a ha
    obtain ⟨e, he, rfl⟩ := hmem a ha
    exact ⟨(h.valid e he).fresh, (h.valid e he).outputs, (h.valid e he).inputs⟩

theorem PoolValid.requeried (h : PoolValid me.toEnv bc pool)
    (hquery : Requeried me.toEnv me.fns bc bc') : PoolValid me.toEnv bc' pool :=
  ⟨h.pruned, fun e he => hquery.sameChain.validAt (h.valid e he)⟩

theorem Gathered.addSpentKeys {f : Fill} (h : Gathered bc pool picks f) :
    bc.db.addSpentKeys (picks.map (·.tx)) = true := by
  have hkeys : (picks.map (·.tx)).flatMap (·.keyImages) = f.kImages := by
    rw [h.kImages, flatMap_map]
  unfold BlockchainDB.addSpentKeys
  simp only [hkeys, Bool.and_eq_true, decide_eq_true_eq, all_eq_true, Bool.not_eq_true']
  exact ⟨h.nodup, h.unspent⟩

variable {node : Node} {address : AccountPublicAddress} {exNonce : Blob}

/-- A template is assembled from the pool and the chain. -/
theorem buildTemplate_some (h : (node.buildTemplate me address exNonce).1 = some t)
    (hpool : PoolValid me.toEnv node.bc node.pool) :
    (∃ picks reward, Assembled me node.bc node.pool t picks reward) ∧
      Requeried me.toEnv me.fns node.bc (node.buildTemplate me address exNonce).2.bc ∧
      SamePool node.pool (node.buildTemplate me address exNonce).2.pool ∧
      t.block.timestamp = node.bc.templateTimestamp me.toEnv := by
  have hquery := Requeried.query me.toEnv me.fns node.bc
  obtain ⟨cache, hcache⟩ := hquery.cache
  unfold Node.buildTemplate at h ⊢
  generalize hr : getDifficultyForNextBlock me.toEnv me.fns node.bc = r at h hquery hcache ⊢
  obtain ⟨diffic, bc⟩ := r
  simp only [] at h hquery hcache ⊢
  by_cases hzero : diffic = 0
  · simp [hzero] at h
  rw [if_neg hzero] at h ⊢
  simp only [Option.map_eq_some_iff, Option.bind_eq_bind, Option.bind_eq_some_iff] at h ⊢
  obtain ⟨minerTx, ⟨first, -, htry⟩, ht⟩ := h
  obtain ⟨attempt, made, extra, hmade, hextra⟩ := tryCoinbase_some htry
  obtain ⟨reward, key, hreward, hvin, hvout, hunlock⟩ := constructMinerTx_some hmade
  obtain ⟨picks, hsub, hg⟩ := fillBlockTemplate_gathered (hpool.requeried hquery)
    (node.bc.currentBlockCumulWeightLimit / 2) bc.db.generatedCoins
    node.bc.hardfork.getCurrentVersion
  subst hcache ht
  refine ⟨⟨picks, reward, ?_⟩, hquery, hg.samePool, rfl⟩
  exact {
    majorVersion := rfl
    minorVersion := rfl
    prevId := rfl
    diffic := by rw [hr]
    diffic_ne := hzero
    coinbase := by
      subst hextra
      exact prevalidateMinerTransaction_of_singleton hvin hvout hunlock
    ids := hg.ids
    nodup := node.pool.nodup.sublist (hsub.map _)
    found := fun e he => TxPool.find?_eq_some_iff.mpr ⟨hsub.subset he, rfl⟩
    unpruned := hg.unpruned
    unspent := hg.addSpentKeys
    rewarded := by
      rw [← hg.weight, Nat.add_comm]
      exact hreward
    vout := ⟨key, by subst hextra; rw [← hg.fee]; exact hvout⟩ }

/-- A cached template is one of this chain and pool, but for its timestamp. -/
def CacheValid (me : MinerEnv) (node : Node) (address : AccountPublicAddress) (exNonce : Blob) :
    Prop :=
  ∀ c, node.cachedTemplate me address exNonce = some c →
    ∃ picks reward, Assembled me node.bc node.pool c.template picks reward

variable (hpool : PoolValid me.toEnv node.bc node.pool)

include hpool

/-- A template, new or from the cache, is assembled from the pool and the chain. -/
theorem createBlockTemplate_some (hcache : CacheValid me node address exNonce)
    (h : (node.createBlockTemplate me address exNonce).1 = some t) :
    (∃ picks reward, Assembled me (node.createBlockTemplate me address exNonce).2.bc
      (node.createBlockTemplate me address exNonce).2.pool t picks reward) ∧
      Requeried me.toEnv me.fns node.bc (node.createBlockTemplate me address exNonce).2.bc ∧
      SamePool node.pool (node.createBlockTemplate me address exNonce).2.pool := by
  unfold Node.createBlockTemplate at h ⊢
  cases hc : node.cachedTemplate me address exNonce with
  | some c =>
    simp only [hc, Option.some.injEq] at h ⊢
    obtain ⟨picks, reward, hassembled⟩ := hcache c hc
    subst h
    exact ⟨⟨picks, reward, hassembled.timestamp _⟩, Requeried.refl _ _ _, SamePool.refl _⟩
  | none =>
    simp only [hc] at h ⊢
    obtain ⟨⟨picks, reward, hassembled⟩, hquery, hsame, -⟩ := buildTemplate_some h hpool
    obtain ⟨picks', hassembled'⟩ := (hassembled.requeried hquery).samePool hsame
    exact ⟨⟨picks', reward, hassembled'⟩, hquery, hsame⟩

/-- The cached template stays one that could be built. -/
theorem createBlockTemplate_cacheValid (hcache : CacheValid me node address exNonce)
    (h : (node.createBlockTemplate me address exNonce).1 = some t) :
    CacheValid me (node.createBlockTemplate me address exNonce).2 address exNonce := by
  obtain ⟨hassembled, -⟩ := createBlockTemplate_some hpool hcache h
  have hstored : (node.createBlockTemplate me address exNonce).2.templateCache.map (·.template) =
      some t := by
    unfold Node.createBlockTemplate at h ⊢
    cases hc : node.cachedTemplate me address exNonce with
    | some c => simpa [hc] using h
    | none =>
      simp only [hc] at h ⊢
      rw [h]
      rfl
  intro c hc
  unfold Node.cachedTemplate at hc
  rw [Option.filter_eq_some_iff] at hc
  rw [hc.1, Option.map_some, Option.some.injEq] at hstored
  rw [hstored]
  exact hassembled

end Templates

/-- `b` is the template with a nonce that meets its difficulty. At a height with a checkpoint only
the block pinned there counts. -/
structure Mined (ce : ChainEnv) (bc : Blockchain) (t : BlockTemplate) (b : Block) : Prop where
  nonce : ∃ nonce, b = { t.block with nonce }
  work : bc.checkProofOfWork ce b bc.db.height t.diffic = .ok ()
  checkpoint : Blockchain.checkCheckpoint ce bc.db.height (ce.blockHash b) = true

theorem HardFork.getCurrentVersion_le (hf : HardFork) :
    hf.getCurrentVersion ≤ hf.getIdealVersion := by
  unfold HardFork.getCurrentVersion HardFork.getIdealVersion ForkTable.back
  rw [getLast_eq_getElem]
  rcases Nat.lt_or_ge hf.currentForkIndex.val (hf.heights.forks.length - 1) with hlt | hge
  · exact Nat.le_of_lt
      (pairwise_iff_getElem.mp hf.heights.increasing _ _ _ (by omega) hlt).1
  · have hval : hf.currentForkIndex.val = hf.heights.forks.length - 1 := by omega
    rw [get_eq_getElem]
    simp only [hval, Nat.le_refl]

section Accepting

variable {me : MinerEnv} {node : Node} {t : BlockTemplate} {b : Block} {picks : List PoolTx}
  {reward : UInt64}

theorem Assembled.check (h : Assembled me node.bc node.pool t picks reward) (nonce : ℕ) :
    node.bc.hardfork.check { t.block with nonce } = true := by
  have hle := node.bc.hardfork.getCurrentVersion_le
  simp only [HardFork.check, HardFork.doCheck, Block.vote, h.majorVersion, h.minorVersion,
    decide_true, Bool.true_and, decide_eq_true_eq]
  split_ifs with hzero
  · omega
  · exact hle

theorem validateMinerTransaction_isSome_iff {bc : Blockchain} {b : Block} {o : TxOut} {w : ℕ}
    {fee : UInt64} (hvout : b.minerTx.vout = [o]) (hamount : o.amount = reward + fee) :
    (∃ r, bc.validateMinerTransaction b w fee bc.db.generatedCoins bc.getCurrentHardForkVersion =
      some r) ↔ bc.AcceptsReward w reward := by
  have hmoney : b.minerTx.moneyOut = reward + fee := by
    simp [Transaction.moneyOut, hvout, hamount]
  have hcoins : ¬0 < bc.db.generatedCoins ↔ bc.db.generatedCoins = 0 := by
    rw [UInt64.not_lt, UInt64.le_iff_toNat_le, ← UInt64.toNat_inj]
    exact Nat.le_zero
  unfold validateMinerTransaction Blockchain.AcceptsReward
  rw [if_neg (by simp [hvout]), hmoney]
  cases getBlockReward bc.db.shortTermMedian w bc.db.generatedCoins
    bc.getCurrentHardForkVersion with
  | none => simp
  | some r =>
    have hsum : r + fee = reward + fee ↔ r = reward := UInt64.add_left_inj fee
    simp only [Option.some.injEq, exists_eq_left', ne_eq, hsum]
    by_cases hr : r = reward <;> by_cases hz : 0 < bc.db.generatedCoins <;> simp_all

/-- When a block mined from a template is accepted. -/
theorem Assembled.accepted_iff (h : Assembled me node.bc node.pool t picks reward)
    (hgenesis : 0 < node.bc.db.height) (hpool : PoolValid me.toEnv node.bc node.pool)
    (hmined : Mined me.toChainEnv node.bc t b) :
    (node.handleBlockToMainChain me.toChainEnv b).1 = .ok () ↔
      node.bc.checkBlockTimestamp me.toEnv t.block = true ∧
        node.bc.AcceptsReward (me.txWeight t.block.minerTx + weightsOf picks) reward := by
  obtain ⟨⟨nonce, hb⟩, hwork, hcheckpoint⟩ := hmined
  have hprev : b.prevId = node.bc.db.topBlockHash me.toEnv := by rw [hb]; exact h.prevId
  have hcheck : node.bc.hardfork.check b = true := by rw [hb]; exact h.check nonce
  have htime : b.timestamp = t.block.timestamp := by rw [hb]
  have hids : b.txHashes = picks.map (·.id) := by rw [hb]; exact h.ids
  have hminer : b.minerTx = t.block.minerTx := by rw [hb]
  have hpre : prevalidateMinerTransaction b node.bc.db.height = true := by rw [hb]; exact h.coinbase
  obtain ⟨key, hvout⟩ := h.vout
  rw [← hminer] at hvout ⊢
  have hlinks : node.bc.checkBlockLinks me.toEnv b = .ok () ↔
      node.bc.checkBlockTimestamp me.toEnv t.block = true := by
    simp only [checkBlockLinks, bind_eq_ok, exists_unit, require_eq_ok, hprev, hcheck,
      true_and, checkBlockTimestamp, checkTimestamps, htime]
  obtain ⟨cache, hcache⟩ := getDifficultyForNextBlock_snd me.toEnv me.fns node.bc
  have hsame := SameChain.cache node.bc cache
  rw [← hcache] at hsame
  rw [handleBlockToMainChain_ok_iff, hlinks, ← h.diffic]
  have hheader : checkBlockWork me.toChainEnv
      (getDifficultyForNextBlock me.toEnv me.fns node.bc).2 b t.diffic = .ok () := by
    rw [hcache]
    simp only [checkBlockWork, bind_eq_ok, exists_unit, require_eq_ok]
    exact ⟨h.diffic_ne, hwork, hcheckpoint, hpre⟩
  have hvalid : ∀ e ∈ picks,
      ValidAt me.toEnv (getDifficultyForNextBlock me.toEnv me.fns node.bc).2 e :=
    fun e he => hsame.validAt (hpool.valid e (TxPool.find?_eq_some_iff.mp (h.found e he)).1)
  have hpos : 0 < (getDifficultyForNextBlock me.toEnv me.fns node.bc).2.db.height := by
    rw [hcache]
    exact hgenesis
  have hunspent := h.unspent
  rw [show node.bc.db = (getDifficultyForNextBlock me.toEnv me.fns node.bc).2.db by rw [hcache]]
    at hunspent
  rw [takeBlockTxs_isOk_iff hpos hids h.found hvalid h.nodup h.unpruned hunspent,
    and_iff_right hheader, validateMinerTransaction_isSome_iff hvout rfl, hcache]
  rfl

end Accepting

end Nerva
