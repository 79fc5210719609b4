import Nerva.Proofs.BatchForks
import Nerva.Proofs.PoolModels
import Mathlib.Logic.Equiv.List

/-!
# A rolled-back batch and the pool

The blocks of a batch take their transactions out of the pool's table and out of its memory. When
the batch is aborted, the table goes back and the memory stays.
-/

namespace Nerva

open List TxPool

/-- A property that every call of the pool keeps, where what is added and what is taken out is in
`T`. -/
structure TxPool.Stable (ce : ChainEnv) (T : Hash → Transaction → Prop) (Q : TxPool → Prop) :
    Prop where
  takeTx : ∀ {pool left : TxPool} {id : Hash} {e : PoolTx}, Q pool →
    pool.takeTx id = some (e, left) → Q left ∧ T e.id e.tx
  addTx : ∀ {pool : TxPool} (bc : Blockchain) {tx : Transaction} {id : Hash} (txWeight : ℕ)
    (keptByBlock relayed doNotRelay : Bool) (version : ℕ), Q pool → T id tx →
    Q (pool.addTx ce bc tx id txWeight keptByBlock relayed doNotRelay version).2
  validate : ∀ {pool : TxPool} (bc : Blockchain) (version : ℕ), Q pool →
    Q (pool.validate ce bc version)

section Stable

variable {ce : ChainEnv} {node node' : Node} {b : Block} {T : Hash → Transaction → Prop}
  {Q : TxPool → Prop} (hQ : TxPool.Stable ce T Q)

include hQ

theorem TxPool.Stable.takenFor (h : Q node.pool) (b : Block) :
    Q (takenFor ce node.bc node.pool b).pool ∧
      ∀ e ∈ (takenFor ce node.bc node.pool b).txs, T e.id e.tx := by
  refine foldlM_lastTaken (P := fun t => Q t.pool ∧ ∀ e ∈ t.txs, T e.id e.tx)
    (fun t id ht => ?_) b.txHashes ⟨h, forall_mem_nil _⟩
  rcases takeBlockTx_lastTaken ce.toEnv node.bc t id with heq | ⟨e, left, htake, htxs, hpool, -⟩
  · rw [heq]
    exact ht
  · obtain ⟨hleft, htaken⟩ := hQ.takeTx ht.1 htake
    rw [htxs, hpool]
    refine ⟨hleft, fun a ha => ?_⟩
    rcases mem_append.mp ha with ha | ha
    · exact ht.2 a ha
    · rw [mem_singleton.mp ha]
      exact htaken

theorem TxPool.Stable.returnTxToPool (bc : Blockchain) : ∀ (es : List PoolTx) {pool : TxPool},
    Q pool → (∀ e ∈ es, T e.id e.tx) → Q (returnTxToPool ce bc pool es)
  | [], _, h, _ => h
  | e :: es, pool, h, hes => by
    rw [forall_mem_cons] at hes
    exact TxPool.Stable.returnTxToPool bc es (hQ.addTx bc _ _ _ _ _ h hes.1) hes.2

theorem TxPool.Stable.revalidateFrom (h : Q node.pool) (previous : ℕ) :
    Q (node.revalidateFrom ce previous).pool := by
  unfold Node.revalidateFrom
  simp only []
  split
  · exact h
  · exact hQ.validate node.bc _ h

variable (hT : ∀ tx, T (ce.txHash tx) tx)

include hT

/-- A popped block returns its transactions. -/
theorem TxPool.Stable.popBlock (h : Q node.pool)
    (hpop : node.popBlockFromBlockchain ce = some (b, node')) : Q node'.pool := by
  have hreturned : ∀ (bc : Blockchain) (txs : List Transaction) {pool : TxPool}, Q pool →
      Q (txs.foldl (Node.returnPopped ce bc) pool) := by
    intro bc txs
    induction txs with
    | nil => exact id
    | cons tx txs ih =>
      intro pool hpool
      refine ih ?_
      unfold Node.returnPopped
      split
      · exact hpool
      · exact hQ.addTx bc _ _ _ _ _ hpool (hT tx)
  unfold Node.popBlockFromBlockchain at hpop
  split at hpop
  · cases hpop
  · split at hpop
    · cases hpop
    · obtain ⟨-, rfl⟩ := hpop
      refine hQ.revalidateFrom ?_ _
      exact hreturned _ _ h

/-- Whatever becomes of a block, the pool is changed by these calls only. -/
theorem TxPool.Stable.move (hmove : Move ce node node') (h : Q node.pool) : Q node'.pool := by
  cases hmove with
  | aside haside => rwa [haside.pool]
  | refuse b refusal =>
    obtain ⟨hleft, htaken⟩ := hQ.takenFor h b
    unfold Node.refuseBlock
    simp only []
    split
    · exact hleft
    · exact hQ.returnTxToPool node.bc _ hleft htaken
  | store hcheck htake =>
    rename_i b diffic info pool
    obtain ⟨es, t, hfold, -, rfl, -, -⟩ := takeBlockTxs_ok htake
    have hleft := (hQ.takenFor h b).1
    rw [Nerva.takenFor, hfold] at hleft
    unfold Node.storeBlock
    simp only []
    split
    · exact hleft
    · refine hQ.revalidateFrom ?_ _
      exact hleft
  | pop hpop => exact hQ.popBlock hT h hpop
  | reorganize height => exact h
  | incoming tx =>
    unfold Node.addIncomingTx
    simp only []
    split
    · exact h
    · exact hQ.addTx node.bc _ _ _ _ _ h (hT tx)

end Stable

/-- The transactions are kept under their hashes. -/
def TxPool.Labelled (ce : ChainEnv) (pool : TxPool) : Prop := ∀ e ∈ pool.txs, e.id = ce.txHash e.tx

section Labelled

variable {ce : ChainEnv} {pool left : TxPool} {e : PoolTx} {id : Hash} (h : pool.Labelled ce)

include h

theorem TxPool.Labelled.mapInfo (f : PoolTx → TxpoolTxMeta) : (pool.mapInfo f).Labelled ce := by
  intro e he
  obtain ⟨a, ha, rfl⟩ := mem_map.mp he
  exact h a ha

theorem TxPool.Labelled.takeTx (htake : pool.takeTx id = some (e, left)) :
    left.Labelled ce ∧ e.id = ce.txHash e.tx := by
  obtain ⟨hperm, -, -⟩ := takeTx_perm htake
  exact ⟨fun a ha => h a (hperm.mem_iff.mpr (mem_cons_of_mem e ha)),
    h e (hperm.mem_iff.mpr mem_cons_self)⟩

theorem TxPool.Labelled.store (he : e.id = ce.txHash e.tx) : (pool.store e).2.Labelled ce := by
  unfold TxPool.store
  split
  · intro a ha
    have hmem := (perm_orderedInsert comesBefore e pool.txs).mem_iff.mp
      ((prune_sublist _ _).subset ha)
    rcases mem_cons.mp hmem with rfl | hold
    · exact he
    · exact h a hold
  · exact h

theorem TxPool.Labelled.addTx (bc : Blockchain) {tx : Transaction} (htx : id = ce.txHash tx)
    (txWeight : ℕ) (keptByBlock relayed doNotRelay : Bool) (version : ℕ) :
    (pool.addTx ce bc tx id txWeight keptByBlock relayed doNotRelay version).2.Labelled ce := by
  have hstore : ∀ info rate time, (pool.store ⟨id, tx, info, rate, time⟩).2.Labelled ce :=
    fun info rate time => h.store htx
  unfold TxPool.addTx
  simp only []
  split
  · simp only []
    split
    · exact h.mapInfo _
    · exact h
  · split
    · split
      · exact hstore _ _ _
      · exact h
    · exact hstore _ _ _

theorem TxPool.Labelled.revalidate (bc : Blockchain) (version : ℕ) (e : PoolTx) :
    (pool.revalidate ce bc version e).2.Labelled ce := by
  unfold TxPool.revalidate
  cases htake : pool.takeTx e.id with
  | none => exact h
  | some r =>
    obtain ⟨taken, left⟩ := r
    obtain ⟨hleft, htx⟩ := h.takeTx htake
    rw [(takeTx_perm htake).2.1] at htx
    have hadded := hleft.addTx bc htx e.info.weight false taken.info.relayed
      taken.info.doNotRelay version
    simp only []
    split
    · rename_i heq
      rwa [heq] at hadded
    · rename_i heq
      rw [heq] at hadded
      exact hadded.mapInfo _

end Labelled

variable {id : Hash} {k : KeyImage} {pool : TxPool}

def feeTx (fee : UInt64) (k : KeyImage) : Transaction :=
  { bulletproofTx with
    vin := [.toKey 0 [10, 1, 1, 1, 1] k]
    rctSignatures := { bulletproofTx.rctSignatures with txnFee := fee } }

def waitingNode : Node := (trackedNode 560).addIncomingTx paidEnv bulletproofTx

def takingBatch : Batch where
  nblocks := 2
  entries := [
    { block := bulletproofInfo.bl },
    { txs := [feeTx 1000000000002 9, feeTx 1000000000003 9]
      block := paidBlock 561 561 561 (paidReward 561 + 2000000000005)
        [1000000000002, 1000000000003] }]

end Nerva
