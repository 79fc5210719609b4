import Nerva.Proofs.MainChain

/-!
# What a block has taken from the pool

A block takes its transactions one by one and may be refused at any of them; what it has taken by
then is what `return_tx_to_pool` gives back.
-/

namespace Nerva

open List

def lastTaken : Except (BlockRefusal × TakenTxs) TakenTxs → TakenTxs
  | .ok t => t
  | .error (_, t) => t

section Loop

variable {env : Env} {ce : ChainEnv} {bc : Blockchain}

/-- A step takes a transaction from the pool, or leaves what was taken. -/
theorem takeBlockTx_lastTaken (env : Env) (bc : Blockchain) (t : TakenTxs) (id : Hash) :
    lastTaken (takeBlockTx env bc t id) = t ∨
      ∃ e left, t.pool.takeTx id = some (e, left) ∧
        (lastTaken (takeBlockTx env bc t id)).txs = t.txs ++ [e] ∧
        (lastTaken (takeBlockTx env bc t id)).pool = left ∧
        (lastTaken (takeBlockTx env bc t id)).nPruned =
          if e.info.pruned then t.nPruned + 1 else t.nPruned := by
  unfold takeBlockTx
  by_cases hfresh : bc.db.txExists env id = true
  · exact .inl (by rw [if_pos hfresh]; rfl)
  · rw [if_neg hfresh]
    cases htake : t.pool.takeTx id with
    | none => exact .inl rfl
    | some r =>
      obtain ⟨e, left⟩ := r
      refine .inr ⟨e, left, rfl, ?_⟩
      simp only []
      cases hout : checkTxOutputs env bc e.tx with
      | error flag => exact ⟨rfl, rfl, rfl⟩
      | ok _ =>
        cases hin : checkTxInputs env bc e.tx with
        | error flag => exact ⟨rfl, rfl, rfl⟩
        | ok height => exact ⟨rfl, rfl, rfl⟩

theorem foldlM_lastTaken {P : TakenTxs → Prop}
    (hstep : ∀ t id, P t → P (lastTaken (takeBlockTx env bc t id))) :
    ∀ (ids : List Hash) {t : TakenTxs}, P t → P (lastTaken (ids.foldlM (takeBlockTx env bc) t))
  | [], _, h => h
  | id :: ids, t, h => by
    have hturn := hstep t id h
    rw [foldlM_cons]
    cases hr : takeBlockTx env bc t id with
    | error r => rwa [hr] at hturn
    | ok t' =>
      rw [hr] at hturn
      exact foldlM_lastTaken hstep ids hturn

theorem foldlM_takeBlockTx_refusal : ∀ {ids : List Hash} {t t' : TakenTxs} {refusal : BlockRefusal},
    ids.foldlM (takeBlockTx env bc) t = .error (refusal, t') → refusal.keepsTransactions = false
  | [], _, _, _, h => by cases h
  | id :: ids, t, t', refusal, h => by
    rw [foldlM_cons] at h
    cases hr : takeBlockTx env bc t id with
    | ok t₁ =>
      rw [hr] at h
      exact foldlM_takeBlockTx_refusal h
    | error r =>
      rw [hr] at h
      cases h
      unfold takeBlockTx at hr
      split at hr
      · cases hr
        rfl
      · split at hr
        · cases hr
          rfl
        · simp only [] at hr
          split at hr
          · cases hr
            rfl
          · cases hr
            rfl
          · cases hr

/-- A block that does not get through: what it had taken, and that nothing is lost unless a pruned
transaction was among it. -/
theorem takeBlockTxs_error {diffic : UInt64} {pool : TxPool} {b : Block} {refusal : BlockRefusal}
    {t : TakenTxs} (h : takeBlockTxs ce bc diffic pool b = .error (refusal, t)) :
    t = lastTaken (b.txHashes.foldlM (takeBlockTx ce.toEnv bc)
        { pool, cumulativeWeight := ce.txWeight b.minerTx }) ∧
      (refusal.keepsTransactions = true → 0 < t.nPruned) := by
  unfold takeBlockTxs at h
  cases hfold : b.txHashes.foldlM (takeBlockTx ce.toEnv bc)
      { pool, cumulativeWeight := ce.txWeight b.minerTx } with
  | error r =>
    rw [hfold] at h
    cases h
    refine ⟨rfl, fun hkeeps => ?_⟩
    rw [foldlM_takeBlockTx_refusal hfold] at hkeeps
    cases hkeeps
  | ok t₀ =>
    rw [hfold] at h
    simp only [bind, Except.bind, Checks.require] at h
    split at h
    · rename_i hreq
      split at hreq
      · cases hreq
      · rename_i hnot
        cases hreq
        cases h
        refine ⟨rfl, fun _ => ?_⟩
        exact of_decide_eq_true (not_not.mp hnot).1
    · split at h
      · cases h
        exact ⟨rfl, fun hkeeps => by cases hkeeps⟩
      · split at h
        · cases h
          exact ⟨rfl, fun hkeeps => by cases hkeeps⟩
        · split at h
          · rename_i hreq
            split at hreq
            · cases hreq
            · cases hreq
              cases h
              exact ⟨rfl, fun hkeeps => by cases hkeeps⟩
          · cases h

end Loop

end Nerva
