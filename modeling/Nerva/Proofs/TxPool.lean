import Nerva.TxPool

/-!
# The pool as a finite map

What each operation of the pool does to the transaction found under an id, and what the pool holds
after a transaction was added: `prune` may take others out, but none that came from a block, and
none at all when there is room.
-/

namespace Nerva

open Checks List

theorem weightsOf_append (txs txs' : List PoolTx) :
    weightsOf (txs ++ txs') = weightsOf txs + weightsOf txs' := by
  induction txs with
  | nil => simp [weightsOf]
  | cons e txs ih =>
    simp only [weightsOf, cons_append, foldr_cons] at ih ⊢
    omega

namespace TxPool

variable {pool : TxPool} {id k : Hash} {e : PoolTx}

theorem find?_eq_some_iff : pool.find? id = some e ↔ e ∈ pool.txs ∧ e.id = id :=
  Keyed.lookup_eq_some_iff pool.nodup

theorem takeTx_of_find? (h : pool.find? id = some e) :
    ∃ left, pool.takeTx id = some (e, left) ∧
      ∀ k, left.find? k = if k = id then none else pool.find? k := by
  obtain ⟨-, rfl⟩ := find?_eq_some_iff.mp h
  unfold takeTx
  rw [h]
  refine ⟨_, rfl, fun k => ?_⟩
  refine (Keyed.lookup_filter pool.nodup _).trans ?_
  rw [← find?]
  by_cases hk : k = e.id
  · subst hk
    rw [h]
    simp
  · rw [if_neg hk]
    cases hf : pool.find? k with
    | none => rfl
    | some a =>
      rw [Option.filter_some, if_pos]
      rw [(find?_eq_some_iff.mp hf).2]
      exact decide_eq_true hk

/-- `take_tx` removes the transaction with the id. -/
theorem takeTx_eq_some_iff {left : TxPool} :
    pool.takeTx id = some (e, left) ↔ e ∈ pool.txs ∧ e.id = id ∧
      left = { pool.removeTx e with cookie := (pool.removeTx e).cookie + 1 } := by
  unfold takeTx
  rw [Option.map_eq_some_iff]
  simp only [find?_eq_some_iff, Prod.mk.injEq]
  constructor
  · rintro ⟨e, ⟨he, hid⟩, rfl, rfl⟩
    exact ⟨he, hid, rfl⟩
  · rintro ⟨he, hid, rfl⟩
    exact ⟨e, ⟨he, hid⟩, rfl, rfl⟩

theorem takeTx_perm {left : TxPool} (h : pool.takeTx id = some (e, left)) :
    pool.txs.Perm (e :: left.txs) ∧ e.id = id ∧ left.maxWeight = pool.maxWeight := by
  obtain ⟨hmem, hid, rfl⟩ := takeTx_eq_some_iff.mp h
  exact ⟨Keyed.perm_cons_filter pool.nodup hmem, hid, rfl⟩

theorem mem_removeTx {a : PoolTx} : a ∈ (pool.removeTx e).txs ↔ a ∈ pool.txs ∧ a.id ≠ e.id := by
  unfold removeTx keep
  rw [mem_filter, decide_eq_true_iff]

theorem pruneFrom_sublist {bytes : ℕ} : ∀ (rest : List PoolTx) {changed : Bool} {pool : TxPool},
    (pruneFrom bytes changed rest pool).2.txs <+ pool.txs
  | [], _, _ => .refl _
  | e :: rest, changed, pool => by
    rw [pruneFrom]
    split_ifs
    · exact .refl _
    · exact pruneFrom_sublist rest
    · exact (pruneFrom_sublist rest).trans filter_sublist

theorem prune_sublist (pool : TxPool) (bytes : ℕ) : (pool.prune bytes).txs <+ pool.txs :=
  pruneFrom_sublist _

end TxPool

/-- What `add_tx` asks of a transaction that comes with a block. -/
structure Transaction.Addable (tx : Transaction) : Prop where
  version : tx.version ≠ 0
  inputs : checkInputsTypesSupported tx = true
  keyImages : tx.keyImages.Nodup

end Nerva
