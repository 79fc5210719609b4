import Nerva.Proofs.BatchPool

/-!
# The transactions of a refused block

A refused block gives back what it took from the pool. It does not when it has a pruned transaction
and its weight is not known, and a transaction that comes back can displace others: every addition
ends with `prune`.
-/

namespace Nerva

open List TxPool

namespace TxPool

/-- `prune` has nothing to remove: the weight, a 64-bit number, is within the limit, or only the
first transaction is not from a block. -/
def FitsIn (pool : TxPool) (bytes : ℕ) : Prop :=
  pool.txpoolWeight.toNat ≤ bytes ∨ ∀ e ∈ pool.txs.tail, e.info.keptByBlock = true

/-- The pool without its limit. -/
def unlimited (pool : TxPool) : TxPool := { pool with maxWeight := 2 ^ 64 }

section Prune

variable {pool : TxPool} {bytes : ℕ}

theorem pruneFrom_of_fits {changed : Bool} : ∀ {rest : List PoolTx},
    (pool.txpoolWeight.toNat ≤ bytes ∨ ∀ e ∈ rest, e.info.keptByBlock = true) →
    pruneFrom bytes changed rest pool = (changed, pool)
  | [], _ => rfl
  | e :: rest, h => by
    rw [pruneFrom]
    split_ifs with hfits hkept
    · rfl
    · exact pruneFrom_of_fits (h.imp_right fun hall a ha => hall a (mem_cons_of_mem e ha))
    · rcases h with hle | hall
      · exact absurd hle hfits
      · exact absurd (hall e mem_cons_self) hkept

theorem exists_pruned_of_not_fits {changed : Bool} : ∀ {rest : List PoolTx},
    ¬(pool.txpoolWeight.toNat ≤ bytes ∨ ∀ e ∈ rest, e.info.keptByBlock = true) →
    ∃ e ∈ rest, e.info.keptByBlock = false ∧ e.id ∉ (pruneFrom bytes changed rest pool).2.ids
  | [], h => absurd (.inr (forall_mem_nil _)) h
  | e :: rest, h => by
    rw [pruneFrom]
    split_ifs with hfits hkept
    · exact absurd (.inl hfits) h
    · obtain ⟨a, ha, hrest⟩ := exists_pruned_of_not_fits fun hc => h
        (hc.imp_right fun hall => forall_mem_cons.mpr ⟨hkept, hall⟩)
      exact ⟨a, mem_cons_of_mem e ha, hrest⟩
    · refine ⟨e, mem_cons_self, Bool.eq_false_iff.mpr hkept, fun hmem => ?_⟩
      obtain ⟨a, ha, hid⟩ := mem_map.mp hmem
      exact (mem_removeTx.mp ((pruneFrom_sublist rest).subset ha)).2 hid

theorem prune_of_fitsIn (h : pool.FitsIn bytes) : pool.prune bytes = pool := by
  unfold prune
  rw [pruneFrom_of_fits (h.imp_right fun hall e he => hall e (mem_reverse.mp he))]
  rfl

/-- A pool that is too heavy loses a transaction. -/
theorem exists_pruned_of_not_fitsIn (h : ¬pool.FitsIn bytes) :
    ∃ e ∈ pool.txs, e.info.keptByBlock = false ∧ e.id ∉ (pool.prune bytes).ids := by
  have hnot : ¬(pool.txpoolWeight.toNat ≤ bytes ∨
      ∀ e ∈ pool.txs.tail.reverse, e.info.keptByBlock = true) := fun hc =>
    h (hc.imp_right fun hall e he => hall e (mem_reverse.mpr he))
  obtain ⟨e, he, hpruned⟩ := exists_pruned_of_not_fits hnot
  exact ⟨e, mem_of_mem_tail (mem_reverse.mp he), hpruned⟩

theorem mem_ids_of_prune {id : Hash} (h : id ∈ (pool.prune bytes).ids) : id ∈ pool.ids :=
  ((prune_sublist pool bytes).map _).subset h

end Prune

end TxPool

/-- `pool` with the id put in: nothing else is new, and what is new is from a block. -/
structure TxPool.Inserted (pool : TxPool) (id : Hash) (inserted : TxPool) : Prop where
  ids : ∀ k, k ∈ inserted.ids ↔ k = id ∨ k ∈ pool.ids
  kept : ∀ a ∈ inserted.txs, a.info.keptByBlock = false → a.id ∈ pool.ids
  maxWeight : inserted.maxWeight = pool.maxWeight

theorem TxPool.store_ok {pool : TxPool} {e : PoolTx}
    (hkept : e.info.keptByBlock = true) (h : (pool.store e).1 = .ok ()) :
    ∃ inserted, Inserted pool e.id inserted ∧
      (pool.store e).2 = inserted.prune pool.maxWeight ∧
      (pool.unlimited.store e).2 = inserted.unlimited := by
  unfold store at h ⊢
  split_ifs at h with hnew
  have hperm : (pool.insert e hnew.1).txs.Perm (e :: pool.txs) :=
    perm_orderedInsert _ e pool.txs
  refine ⟨pool.insert e hnew.1, ⟨?_, ?_, rfl⟩, ?_, ?_⟩
  · intro k
    rw [TxPool.ids, (hperm.map (·.id)).mem_iff, map_cons, mem_cons]
    rfl
  · intro a ha hnot
    rcases mem_cons.mp (hperm.mem_iff.mp ha) with rfl | ha
    · rw [hkept] at hnot
      cases hnot
    · exact mem_map_of_mem ha
  · rw [dif_pos hnew]
    rfl
  · have hnew' : e.id ∉ pool.unlimited.ids ∧ e.tx.keyImages.Nodup := hnew
    rw [dif_pos hnew']
    exact prune_of_fitsIn (.inl (Nat.le_of_lt (UInt64.toNat_lt _)))

section Return

variable {ce : ChainEnv} {bc : Blockchain} {e : PoolTx} {pool : TxPool}

/-- `add_tx` takes the transaction back whatever the pool has besides it. -/
def PoolTx.CanReturn (ce : ChainEnv) (bc : Blockchain) (e : PoolTx) : Prop :=
  ∀ pool : TxPool, e.id ∉ pool.ids →
    (pool.addTx ce bc e.tx e.id (ce.txWeight e.tx) true true false
      bc.getCurrentHardForkVersion).1 = .ok ()

theorem returnTxToPool_cons (pool : TxPool) (e : PoolTx) (es : List PoolTx) :
    returnTxToPool ce bc pool (e :: es) = returnTxToPool ce bc (returnTxToPool ce bc pool [e]) es :=
  rfl

/-- A transaction that can return is inserted, and the pool pruned. -/
theorem PoolTx.CanReturn.inserted (h : e.CanReturn ce bc) (hid : e.id ∉ pool.ids) :
    ∃ inserted, TxPool.Inserted pool e.id inserted ∧
      returnTxToPool ce bc pool [e] = inserted.prune pool.maxWeight ∧
      returnTxToPool ce bc pool.unlimited [e] = inserted.unlimited := by
  have hok := h pool hid
  change ∃ inserted, TxPool.Inserted pool e.id inserted ∧
    (pool.addTx ce bc e.tx e.id (ce.txWeight e.tx) true true false
      bc.getCurrentHardForkVersion).2 = inserted.prune pool.maxWeight ∧
    (pool.unlimited.addTx ce bc e.tx e.id (ce.txWeight e.tx) true true false
      bc.getCurrentHardForkVersion).2 = inserted.unlimited
  unfold addTx at hok ⊢
  have hspent : pool.unlimited.haveTxKeyimgesAsSpent e.tx = pool.haveTxKeyimgesAsSpent e.tx := rfl
  have htimedOut : pool.unlimited.timedOutTransactions = pool.timedOutTransactions := rfl
  rw [hspent, htimedOut]
  cases hc : addTxChecks ce.toEnv bc pool.timedOutTransactions
    (pool.haveTxKeyimgesAsSpent e.tx) e.tx
      e.id (ce.txWeight e.tx) true bc.getCurrentHardForkVersion with
  | error flag =>
    simp only [hc] at hok
    cases hok
  | ok u =>
    simp only [hc] at hok ⊢
    cases hin : checkTxInputsFor ce.toEnv bc e.tx with
    | none =>
      simp only [hin] at hok ⊢
      exact store_ok rfl hok
    | some used =>
      simp only [hin] at hok ⊢
      exact store_ok rfl hok

/-- The transactions can return, and are not in the pool. -/
structure Returnable (ce : ChainEnv) (bc : Blockchain) (pool : TxPool) (es : List PoolTx) :
    Prop where
  back : ∀ e ∈ es, e.CanReturn ce bc
  nodup : (es.map (·.id)).Nodup
  out : ∀ e ∈ es, e.id ∉ pool.ids

theorem Returnable.tail {inserted pool' : TxPool} {es : List PoolTx}
    (h : Returnable ce bc pool (e :: es)) (hins : TxPool.Inserted pool e.id inserted)
    (hsub : ∀ id ∈ pool'.ids, id ∈ inserted.ids) : Returnable ce bc pool' es := by
  have hnodup := h.nodup
  rw [map_cons, nodup_cons] at hnodup
  refine ⟨fun a ha => h.back a (mem_cons_of_mem _ ha), hnodup.2, fun a ha hmem => ?_⟩
  rcases (hins.ids a.id).mp (hsub _ hmem) with hid | hid
  · exact hnodup.1 (hid ▸ mem_map_of_mem ha)
  · exact h.out a (mem_cons_of_mem _ ha) hid

theorem Returnable.mem_ids : ∀ {es : List PoolTx} {pool : TxPool}, Returnable ce bc pool es →
    ∀ {id : Hash}, id ∈ (returnTxToPool ce bc pool es).ids → id ∈ pool.ids ∨ id ∈ es.map (·.id)
  | [], _, _, _, hmem => .inl hmem
  | e :: es, pool, h, id, hmem => by
    obtain ⟨inserted, hins, heq, -⟩ :=
      (h.back e mem_cons_self).inserted (h.out e mem_cons_self)
    rw [returnTxToPool_cons, heq] at hmem
    have htail : Returnable ce bc (inserted.prune pool.maxWeight) es :=
      h.tail hins fun _ hid => mem_ids_of_prune hid
    rw [map_cons, mem_cons]
    rcases htail.mem_ids hmem with hid | hid
    · rcases (hins.ids id).mp (mem_ids_of_prune hid) with hid | hid
      · exact .inr (.inl hid)
      · exact .inl hid
    · exact .inr (.inr hid)

/-- All are in the pool afterwards exactly when it is within its limit after each return. -/
theorem Returnable.kept_iff : ∀ {es : List PoolTx} {pool : TxPool}, Returnable ce bc pool es →
    ((∀ id, id ∈ pool.ids ∨ id ∈ es.map (·.id) → id ∈ (returnTxToPool ce bc pool es).ids) ↔
      ∀ n < es.length,
        (returnTxToPool ce bc pool.unlimited (es.take (n + 1))).FitsIn pool.maxWeight)
  | [], pool, _ => by simp [returnTxToPool]
  | e :: es, pool, h => by
    obtain ⟨inserted, hins, heq, hunlimited⟩ :=
      (h.back e mem_cons_self).inserted (h.out e mem_cons_self)
    have htake : ∀ n, returnTxToPool ce bc pool.unlimited ((e :: es).take (n + 1)) =
        returnTxToPool ce bc inserted.unlimited (es.take n) := by
      intro n
      rw [take_succ_cons, returnTxToPool_cons, hunlimited]
    have hids : ∀ id, id ∈ pool.ids ∨ id ∈ (e :: es).map (·.id) ↔
        id ∈ inserted.ids ∨ id ∈ es.map (·.id) := by
      intro id
      rw [hins.ids, map_cons, mem_cons]
      tauto
    rw [returnTxToPool_cons, heq]
    simp only [htake, hids]
    by_cases hfits : inserted.FitsIn pool.maxWeight
    · have htail : Returnable ce bc inserted es := h.tail hins fun _ => id
      rw [prune_of_fitsIn hfits, htail.kept_iff, hins.maxWeight]
      constructor
      · intro hall n hn
        cases n with
        | zero => exact hfits
        | succ n => exact hall n (Nat.lt_of_succ_lt_succ hn)
      · intro hall n hn
        exact hall (n + 1) (Nat.succ_lt_succ hn)
    · refine iff_of_false (fun hall => ?_) fun hall => hfits (hall 0 (Nat.zero_lt_succ _))
      obtain ⟨a, ha, hkept, hgone⟩ := exists_pruned_of_not_fitsIn hfits
      have htail : Returnable ce bc (inserted.prune pool.maxWeight) es :=
        h.tail hins fun _ hid => mem_ids_of_prune hid
      have hmem := hins.kept a ha hkept
      rcases htail.mem_ids (hall a.id (.inl ((hins.ids a.id).mpr (.inr hmem)))) with hid | hid
      · exact hgone hid
      · obtain ⟨b, hb, hba⟩ := mem_map.mp hid
        exact h.out b (mem_cons_of_mem _ hb) (hba ▸ hmem)

end Return

/-- The transactions of a block that are taken from the pool, up to the first one that is not there
or fails its checks, and the pool without them. -/
def takenFrom (env : Env) (bc : Blockchain) : TxPool → List Hash → List PoolTx × TxPool
  | pool, [] => ([], pool)
  | pool, id :: ids =>
    if bc.db.txExists env id then ([], pool)
    else
      match pool.takeTx id with
      | none => ([], pool)
      | some (e, left) =>
        if (checkTxOutputs env bc e.tx).isOk && (checkTxInputs env bc e.tx).isOk then
          (e :: (takenFrom env bc left ids).1, (takenFrom env bc left ids).2)
        else ([e], left)

section Loop

variable {env : Env} {ce : ChainEnv} {bc : Blockchain} {b : Block}

theorem lastTaken_foldlM : ∀ (ids : List Hash) (t : TakenTxs),
    (lastTaken (ids.foldlM (takeBlockTx env bc) t)).txs = t.txs ++ (takenFrom env bc t.pool ids).1 ∧
      (lastTaken (ids.foldlM (takeBlockTx env bc) t)).pool = (takenFrom env bc t.pool ids).2
  | [], t => ⟨(append_nil _).symm, rfl⟩
  | id :: ids, t => by
    rw [foldlM_cons]
    unfold takenFrom
    by_cases hexists : bc.db.txExists env id = true
    · simp [takeBlockTx, hexists, bind, Except.bind, lastTaken]
    · simp only [hexists]
      cases htake : t.pool.takeTx id with
      | none => simp [takeBlockTx, hexists, htake, bind, Except.bind, lastTaken]
      | some r =>
        obtain ⟨e, left⟩ := r
        simp only []
        cases hout : checkTxOutputs env bc e.tx with
        | error flag =>
          simp [takeBlockTx, hexists, htake, hout, bind, Except.bind, lastTaken, Except.toBool]
        | ok u =>
          cases hin : checkTxInputs env bc e.tx with
          | error flag =>
            simp [takeBlockTx, hexists, htake, hout, hin, bind, Except.bind, lastTaken,
              Except.toBool]
          | ok height =>
            obtain ⟨-, rfl, -⟩ := takeTx_perm htake
            have hvalid : ValidAt env bc e := ⟨Bool.eq_false_iff.mpr hexists, hout, height, hin⟩
            rw [takeBlockTx_of_valid hvalid htake]
            obtain ⟨htxs, hpool⟩ := lastTaken_foldlM ids (t.after [e] left)
            exact ⟨htxs.trans (append_assoc ..), hpool⟩

/-- What was taken and what is left are the pool. -/
theorem takenFrom_perm : ∀ (ids : List Hash) (pool : TxPool),
    pool.txs.Perm ((takenFrom env bc pool ids).1 ++ (takenFrom env bc pool ids).2.txs) ∧
      (∀ e ∈ (takenFrom env bc pool ids).1, e.id ∈ ids) ∧
      (takenFrom env bc pool ids).2.maxWeight = pool.maxWeight
  | [], pool => ⟨.refl _, forall_mem_nil _, rfl⟩
  | id :: ids, pool => by
    unfold takenFrom
    split_ifs
    · exact ⟨.refl _, forall_mem_nil _, rfl⟩
    · cases htake : pool.takeTx id with
      | none => exact ⟨.refl _, forall_mem_nil _, rfl⟩
      | some r =>
        obtain ⟨e, left⟩ := r
        obtain ⟨hperm, hid, hmax⟩ := takeTx_perm htake
        simp only []
        split_ifs
        · obtain ⟨hrest, hids, hmax'⟩ := takenFrom_perm ids left
          refine ⟨hperm.trans (hrest.cons e), fun a ha => ?_, hmax'.trans hmax⟩
          rcases mem_cons.mp ha with rfl | ha
          · exact hid ▸ mem_cons_self
          · exact mem_cons_of_mem _ (hids a ha)
        · refine ⟨hperm, fun a ha => ?_, hmax⟩
          rw [mem_singleton.mp ha, hid]
          exact mem_cons_self

/-- All transactions of the block pass, one of them is pruned, and the weight of the block is not
known. -/
def PrunedUnweighed (ce : ChainEnv) (bc : Blockchain) (pool : TxPool) (b : Block) : Prop :=
  ce.blocksHashCheckWeight bc.db.height = 0 ∧
    ∃ es : List PoolTx, b.txHashes = es.map (·.id) ∧ (es.map (·.id)).Nodup ∧
      (∀ e ∈ es, e ∈ pool.txs ∧ ValidAt ce.toEnv bc e) ∧ ∃ e ∈ es, e.info.pruned = true

theorem keepsTransactions_iff {diffic : UInt64} {pool : TxPool} {refusal : BlockRefusal}
    {t : TakenTxs} (h : takeBlockTxs ce bc diffic pool b = .error (refusal, t)) :
    refusal.keepsTransactions = true ↔ PrunedUnweighed ce bc pool b := by
  constructor
  · intro hkeeps
    unfold takeBlockTxs at h
    cases hfold : b.txHashes.foldlM (takeBlockTx ce.toEnv bc)
        { pool, cumulativeWeight := ce.txWeight b.minerTx } with
    | error r =>
      rw [hfold] at h
      cases h
      rw [foldlM_takeBlockTx_refusal hfold] at hkeeps
      cases hkeeps
    | ok t₀ =>
      obtain ⟨es, left, hids, hnodup, hmem, hvalid, rfl⟩ := foldlM_takeBlockTx_ok hfold
      by_cases hpruned : 0 < es.countP (·.info.pruned) ∧ ce.blocksHashCheckWeight bc.db.height = 0
      · exact ⟨hpruned.2, es, hids, hnodup, fun e he => ⟨hmem e he, hvalid e he⟩,
          countP_pos_iff.mp hpruned.1⟩
      · rw [hfold] at h
        simp only [bind, Except.bind, Checks.require, TakenTxs.after, Nat.zero_add,
          decide_eq_true_eq, hpruned,
          not_false_eq_true, if_true] at h
        split at h
        · cases h
          cases hkeeps
        · split at h
          · cases h
            cases hkeeps
          · split at h
            · rename_i hreq
              split_ifs at hreq
              cases hreq
              cases h
              cases hkeeps
            · cases h
  · rintro ⟨hzero, es, hids, hnodup, hes, hpruned⟩
    have hfind : ∀ e ∈ es, pool.find? e.id = some e := fun e he =>
      find?_eq_some_iff.mpr ⟨(hes e he).1, rfl⟩
    obtain ⟨left, hfold, -⟩ := foldlM_takeBlockTx es
      { pool, cumulativeWeight := ce.txWeight b.minerTx } hfind (fun e he => (hes e he).2)
      hnodup
    have hcount : 0 < es.countP (·.info.pruned) := countP_pos_iff.mpr hpruned
    unfold takeBlockTxs at h
    rw [hids, hfold] at h
    simp only [bind, Except.bind, TakenTxs.after, Nat.zero_add, hcount, hzero] at h
    cases h
    rfl

end Loop

section Refused

variable {ce : ChainEnv} {node : Node} {b : Block} {bc : Blockchain} {pool : TxPool}
  {ids : List Hash}

/-- The block is refused before it takes transactions, or its weight is known where it needs to be
and every pool on the way back fits in the limit. -/
def Node.LosesNothing (ce : ChainEnv) (node : Node) (b : Block) : Prop :=
  let (diffic, bc) := getDifficultyForNextBlock ce.toEnv ce.fns node.bc
  let (es, left) := takenFrom ce.toEnv bc node.pool b.txHashes
  node.bc.checkBlockLinks ce.toEnv b = .ok () → bc.checkBlockWork ce b diffic = .ok () →
    ¬PrunedUnweighed ce bc node.pool b ∧
      ∀ n < es.length,
        (returnTxToPool ce bc left.unlimited (es.take (n + 1))).FitsIn node.pool.maxWeight

theorem returnable_takenFrom (hback : ∀ e ∈ pool.txs, e.id ∈ ids → e.CanReturn ce bc) :
    Returnable ce bc (takenFrom ce.toEnv bc pool ids).2 (takenFrom ce.toEnv bc pool ids).1 := by
  obtain ⟨hperm, hids, -⟩ : _ ∧ (∀ e ∈ (takenFrom ce.toEnv bc pool ids).1, e.id ∈ ids) ∧ _ :=
    takenFrom_perm ids pool
  have hnodup := (hperm.map (·.id)).nodup_iff.mp pool.nodup
  rw [map_append, nodup_append] at hnodup
  refine ⟨fun e he => hback e ?_ (hids e he), hnodup.1, fun e he hmem => ?_⟩
  · exact hperm.mem_iff.mpr (mem_append_left _ he)
  · exact hnodup.2.2 _ (mem_map_of_mem he) _ hmem rfl

theorem mem_ids_takenFrom {env : Env} (id : Hash) :
    id ∈ pool.ids ↔ id ∈ (takenFrom env bc pool ids).2.ids ∨
      id ∈ (takenFrom env bc pool ids).1.map (·.id) := by
  rw [TxPool.ids, ((takenFrom_perm ids pool).1.map (·.id)).mem_iff, map_append,
    mem_append, or_comm]
  rfl

theorem PrunedUnweighed.exists_taken (h : PrunedUnweighed ce bc pool b) :
    ∃ e, e ∈ (takenFrom ce.toEnv bc pool b.txHashes).1 := by
  obtain ⟨-, es, hids, hnodup, hes, e, he, -⟩ := h
  have hfind : ∀ e ∈ es, pool.find? e.id = some e := fun e he =>
    find?_eq_some_iff.mpr ⟨(hes e he).1, rfl⟩
  obtain ⟨left, hfold, -⟩ := foldlM_takeBlockTx es { pool, cumulativeWeight := 0 } hfind
    (fun e he => (hes e he).2) hnodup
  rw [← hids] at hfold
  have htxs : (lastTaken (b.txHashes.foldlM (takeBlockTx ce.toEnv bc) _)).txs = _ :=
    (lastTaken_foldlM b.txHashes { pool, cumulativeWeight := 0 }).1
  rw [hfold] at htxs
  have hes' : es = (takenFrom ce.toEnv bc pool b.txHashes).1 := htxs
  exact ⟨e, hes' ▸ he⟩

/-- When a refused block leaves the pool its transactions. -/
theorem refuseBlock_ids_iff {diffic : UInt64} {refusal : BlockRefusal} {t : TakenTxs}
    (hback : ∀ e ∈ node.pool.txs, e.id ∈ b.txHashes → e.CanReturn ce node.bc)
    (h : takeBlockTxs ce node.bc diffic node.pool b = .error (refusal, t)) :
    (∀ id, id ∈ (node.refuseBlock ce b refusal t).pool.ids ↔ id ∈ node.pool.ids) ↔
      ¬PrunedUnweighed ce node.bc node.pool b ∧
        ∀ n < (takenFrom ce.toEnv node.bc node.pool b.txHashes).1.length,
          (returnTxToPool ce node.bc (takenFrom ce.toEnv node.bc node.pool b.txHashes).2.unlimited
            ((takenFrom ce.toEnv node.bc node.pool b.txHashes).1.take (n + 1))).FitsIn
              node.pool.maxWeight := by
  have hkeeps := keepsTransactions_iff h
  have htaken : t = lastTaken _ := (takeBlockTxs_error h).1
  have htxs : (lastTaken (b.txHashes.foldlM (takeBlockTx ce.toEnv node.bc) _)).txs = _ ∧ _ :=
    lastTaken_foldlM b.txHashes { pool := node.pool, cumulativeWeight := ce.txWeight b.minerTx }
  rw [← htaken] at htxs
  obtain ⟨htxs, hpool⟩ := htxs
  have hreturnable := returnable_takenFrom hback
  have hmax : (takenFrom ce.toEnv node.bc node.pool b.txHashes).2.maxWeight = node.pool.maxWeight :=
    (takenFrom_perm b.txHashes node.pool).2.2
  have hids : ∀ id, id ∈ node.pool.ids ↔
      id ∈ (takenFrom ce.toEnv node.bc node.pool b.txHashes).2.ids ∨ _ := mem_ids_takenFrom
  unfold Node.refuseBlock
  simp only [hpool, htxs, hids]
  by_cases hlost : PrunedUnweighed ce node.bc node.pool b
  · -- what was taken is not in the pool that is left
    rw [if_pos (hkeeps.mpr hlost)]
    refine iff_of_false (fun hall => ?_) fun hall => hall.1 hlost
    obtain ⟨e, he⟩ := hlost.exists_taken
    exact hreturnable.out e he ((hall e.id).mpr (.inr (mem_map_of_mem he)))
  · rw [if_neg (fun hc => hlost (hkeeps.mp hc)), ← hmax, ← hreturnable.kept_iff]
    constructor
    · exact fun hall => ⟨hlost, fun id hid => (hall id).mpr hid⟩
    · exact fun hall id => ⟨hreturnable.mem_ids, hall.2 id⟩

/-- A block that is refused leaves the chain and the ids of the pool as they were just when it loses
nothing. -/
theorem handleBlockToMainChain_refused_iff (ce : ChainEnv) (node node' : Node) (b : Block)
    (refusal : BlockRefusal)
    (hback : ∀ e ∈ node.pool.txs, e.id ∈ b.txHashes →
      e.CanReturn ce (getDifficultyForNextBlock ce.toEnv ce.fns node.bc).2)
    (h : node.handleBlockToMainChain ce b = (.error refusal, node')) :
    (node'.bc.db = node.bc.db ∧ node'.bc.hardfork = node.bc.hardfork ∧
        ∀ id, id ∈ node'.pool.ids ↔ id ∈ node.pool.ids) ↔
      node.LosesNothing ce b := by
  unfold Node.handleBlockToMainChain at h
  unfold Node.LosesNothing
  obtain ⟨cache, hcache⟩ := getDifficultyForNextBlock_snd ce.toEnv ce.fns node.bc
  cases hlinks : node.bc.checkBlockLinks ce.toEnv b with
  | error flag =>
    simp only [hlinks] at h
    obtain ⟨-, rfl⟩ := h
    simp
  | ok u =>
    simp only [hlinks] at h
    generalize getDifficultyForNextBlock ce.toEnv ce.fns node.bc = r at h hback hcache ⊢
    obtain ⟨diffic, bc⟩ := r
    simp only [] at h hback hcache ⊢
    cases hwork : bc.checkBlockWork ce b diffic with
    | error flag =>
      simp only [hwork] at h
      obtain ⟨-, rfl⟩ := h
      simp [hcache]
    | ok u =>
      simp only [hwork] at h
      cases htake : takeBlockTxs ce bc diffic node.pool b with
      | ok r =>
        simp only [htake] at h
        cases h
      | error r =>
        obtain ⟨refusal', t⟩ := r
        simp only [htake, Prod.mk.injEq] at h
        obtain ⟨-, rfl⟩ := h
        let queried : Node := { node with bc }
        have hiff : (∀ id, id ∈ (queried.refuseBlock ce b refusal' t).pool.ids ↔ _) ↔ _ :=
          refuseBlock_ids_iff hback htake
        have hbc : bc.db = node.bc.db ∧ bc.hardfork = node.bc.hardfork := by
          rw [hcache]
          exact ⟨rfl, rfl⟩
        have hdb : (queried.refuseBlock ce b refusal' t).bc.db = node.bc.db ∧
            (queried.refuseBlock ce b refusal' t).bc.hardfork = node.bc.hardfork := by
          unfold Node.refuseBlock
          split <;> exact hbc
        refine ⟨fun hsame _ _ => hiff.mp hsame.2.2, fun hall => ⟨hdb.1, hdb.2, ?_⟩⟩
        exact hiff.mpr (hall trivial rfl)

theorem Transaction.Addable.canReturn {e : PoolTx} (h : e.tx.Addable) (ce : ChainEnv)
    (bc : Blockchain) : e.CanReturn ce bc := by
  intro pool hid
  have hchecks : addTxChecks ce.toEnv bc pool.timedOutTransactions (pool.haveTxKeyimgesAsSpent e.tx)
      e.tx e.id (ce.txWeight e.tx) true bc.getCurrentHardForkVersion = .ok () := by
    simp [addTxChecks, h.version, h.inputs]
  unfold addTx
  simp only [hchecks]
  cases checkTxInputsFor ce.toEnv bc e.tx with
  | none => simp [store, hid, h.keyImages]
  | some used => simp [store, hid, h.keyImages]

def prunedEnv : ChainEnv :=
  { paidEnv with txWeight := fun tx => if tx.pruned then 2 ^ 64 - 1 else 80 }

def poolTxOf (tx : Transaction) : PoolTx where
  id := 1000000000000
  tx := tx
  info :=
    { weight := 80, fee := 1000000000000, receiveTime := 0, keptByBlock := true, relayed := true
      doNotRelay := false, pruned := tx.pruned }
  sortRate := 0
  sortTime := 0

def holdingNode (tx : Transaction) : Node :=
  { trackedNode 560 with pool := TxPool.insert {} (poolTxOf tx) not_mem_nil }

theorem holdingNode_canReturn (pruned : Bool) (bc : Blockchain) :
    ∀ e ∈ (holdingNode { bulletproofTx with pruned }).pool.txs, e.CanReturn prunedEnv bc := by
  intro e he
  rw [mem_singleton.mp he]
  have haddable : { bulletproofTx with pruned }.Addable :=
    ⟨by change 2 ≠ 0; decide, rfl, nodup_singleton 7⟩
  exact haddable.canReturn _ _

theorem eq_mk_of_fst {x : Except BlockRefusal Unit × Node} {r : Except BlockRefusal Unit}
    (h : x.1 = r) : x = (r, x.2) := h ▸ rfl

set_option maxRecDepth 100000 in
/-- A coinbase that claims too little. -/
theorem handleBlockToMainChain_refused_iff_underpaid :
    ∃ node', (holdingNode bulletproofTx).handleBlockToMainChain prunedEnv
        (paidBlock 560 560 560 1 [1000000000000]) = (.error .incorrectMinerTransaction, node') ∧
      ((node'.bc.db = (holdingNode bulletproofTx).bc.db ∧
          node'.bc.hardfork = (holdingNode bulletproofTx).bc.hardfork ∧
          ∀ id, id ∈ node'.pool.ids ↔ id ∈ (holdingNode bulletproofTx).pool.ids) ↔
        (holdingNode bulletproofTx).LosesNothing prunedEnv
          (paidBlock 560 560 560 1 [1000000000000])) := by
  have hrun : ((holdingNode bulletproofTx).handleBlockToMainChain prunedEnv
      (paidBlock 560 560 560 1 [1000000000000])).1 = .error .incorrectMinerTransaction := by
    decide
  refine ⟨_, eq_mk_of_fst hrun, ?_⟩
  exact handleBlockToMainChain_refused_iff prunedEnv _ _ _ _
    (fun e he _ => holdingNode_canReturn false _ e he) (eq_mk_of_fst hrun)

set_option maxRecDepth 100000 in
/-- A block with a pruned transaction whose weight is not known takes the transaction with it. -/
theorem prunedBlock_takes_transaction :
    (∀ bc, ∀ e ∈ (holdingNode { bulletproofTx with pruned := true }).pool.txs,
        e.CanReturn prunedEnv bc) ∧
      ∃ node', (holdingNode { bulletproofTx with pruned := true }).handleBlockToMainChain prunedEnv
          bulletproofInfo.bl = (.error .prunedWithoutWeight, node') ∧
        (holdingNode { bulletproofTx with pruned := true }).pool.ids = [1000000000000] ∧
        node'.pool.ids = [] := by
  refine ⟨fun bc => holdingNode_canReturn true bc, ?_⟩
  have hrun : ((holdingNode { bulletproofTx with pruned := true }).handleBlockToMainChain prunedEnv
      bulletproofInfo.bl).1 = .error .prunedWithoutWeight := by decide
  refine ⟨_, eq_mk_of_fst hrun, rfl, ?_⟩
  decide

end Refused

end Nerva
