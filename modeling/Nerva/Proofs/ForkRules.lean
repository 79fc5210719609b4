import Nerva.Proofs.Accepting

/-!
# Fork rules on transactions

From fork version 14 a transaction must be of type BulletproofPlus, before it neither CLSAG nor
BulletproofPlus, and from version 13 it must have two outputs. The gates ask for `tx.version >= 2`,
while a version 1 transaction carries RingCT data just the same.
-/

namespace Nerva

open Checks

/-- The rules of the fork version `v` on the shape of a transaction. -/
structure ForkRules (v : ℕ) (tx : Transaction) : Prop where
  bulletproofPlus : 14 ≤ v → tx.rctSignatures.type = .bulletproofPlus
  legacy : v < 14 → tx.rctSignatures.type ≠ .clsag ∧ tx.rctSignatures.type ≠ .bulletproofPlus
  twoOutputs : 13 ≤ v → 2 ≤ tx.vout.length

/-- The checks that a transaction passes on its way into the pool. -/
structure AcceptsTx (env : Env) (bc : Blockchain) (badSemantics : List Hash)
    (entry : TxBlobEntry) (keepedByBlock : Bool) (tx : Transaction) : Prop where
  pre : ∃ h, handleIncomingTxPre env badSemantics entry = .ok (tx, h)
  semantic : checkTxSemantic env bc tx keepedByBlock = true
  outputs : checkTxOutputs env bc tx = .ok ()
  inputs : ∃ m, checkTxInputs env bc tx = .ok m

section Gates

variable {env : Env} {bc : Blockchain} {tx : Transaction}

/-- The rules for the type of the signatures. -/
theorem checkTxRctType_ok_iff : checkTxRctType bc tx = .ok () ↔
    ¬(bc.getCurrentHardForkVersion < 8 ∧
      (tx.rctSignatures.type.isRctBulletproof ∨ tx.rctSignatures.bulletproofs ≠ [])) ∧
    ¬(11 ≤ bc.getCurrentHardForkVersion ∧ tx.rctSignatures.type.isRctBorromean) ∧
    ¬(bc.getCurrentHardForkVersion < 11 ∧ tx.rctSignatures.type = .bulletproof2) ∧
    ¬(bc.getCurrentHardForkVersion < 14 ∧ 2 ≤ tx.version ∧
      (tx.rctSignatures.type = .clsag ∨ tx.rctSignatures.type = .bulletproofPlus ∨
        tx.rctSignatures.bulletproofsPlus ≠ [])) ∧
    ¬(14 ≤ bc.getCurrentHardForkVersion ∧ 2 ≤ tx.version ∧
      (tx.rctSignatures.type ≠ .bulletproofPlus ∨ tx.rctSignatures.bulletproofs ≠ [])) := by
  simp only [checkTxRctType, bind_eq_ok, exists_unit, require_eq_ok]
  rfl

theorem checkTxOutputsExceptSubgroup_ok_iff :
    checkTxOutputsExceptSubgroup env bc tx = .ok () ↔
      ¬(13 ≤ bc.getCurrentHardForkVersion ∧ 2 ≤ tx.version ∧ tx.vout.length < 2) ∧
      (∀ o ∈ tx.vout, o.amount = 0) ∧
      (tx.vout.all fun o => o.key?.all env.checkKey) ∧
      checkTxRctType bc tx = .ok () := by
  simp only [checkTxOutputsExceptSubgroup, bind_eq_ok, exists_unit, require_eq_ok]
  rfl

theorem checkTxOutputs_ok_iff : checkTxOutputs env bc tx = .ok () ↔
    checkTxOutputsExceptSubgroup env bc tx = .ok () ∧
    (bc.getCurrentHardForkVersion < 13 ∨ tx.vout.all fun o =>
      o.key?.all fun key => env.isInMainSubgroup key && key ≠ env.identity) := by
  simp only [checkTxOutputs, bind_eq_ok, exists_unit, require_eq_ok]
  rfl

theorem handleIncomingTxPre_version {badSemantics : List Hash} {entry : TxBlobEntry} {h : Hash}
    (hpre : handleIncomingTxPre env badSemantics entry = .ok (tx, h)) :
    tx.version = 1 ∨ tx.version = 2 := by
  simp only [handleIncomingTxPre, bind_eq_ok, exists_unit] at hpre
  obtain ⟨-, hpre⟩ := hpre
  split at hpre
  · cases hpre
  · simp only [bind_eq_ok, exists_unit, require_eq_ok] at hpre
    obtain ⟨-, hv, rfl, -⟩ := hpre
    unfold transactionVersionMax at hv
    omega

/-- From version 2 on, the checks of the outputs are the rules. -/
theorem forkRules_of_checkTxOutputs (hv : 2 ≤ tx.version)
    (h : checkTxOutputs env bc tx = .ok ()) : ForkRules bc.getCurrentHardForkVersion tx := by
  rw [checkTxOutputs_ok_iff, checkTxOutputsExceptSubgroup_ok_iff, checkTxRctType_ok_iff] at h
  obtain ⟨⟨htwo, -, -, -, -, -, hold, hnew⟩, -⟩ := h
  refine ⟨fun h14 => ?_, fun h14 => ⟨fun hc => ?_, fun hp => ?_⟩, fun h13 => ?_⟩
  · by_contra hne
    exact hnew ⟨h14, hv, .inl hne⟩
  · exact hold ⟨h14, hv, .inl hc⟩
  · exact hold ⟨h14, hv, .inr (.inl hp)⟩
  · by_contra hlt
    exact htwo ⟨h13, hv, by omega⟩

end Gates

section VersionOne

/-- A transaction of version 1 with one output, of a type that the rules of `v` forbid. -/
def versionOneTx (v : ℕ) : Transaction where
  version := 1
  unlockTime := 0
  vin := [.toKey 0 (0 :: List.replicate (getRingSize v - 1) 1) 1]
  vout := [⟨0, .toKey 0⟩]
  extra := []
  rctSignatures :=
    { type := if v < 14 then .bulletproofPlus else .bulletproof2
      txnFee := 0
      outPk := [0]
      bulletproofs := if v < 14 then [] else [⟨[0]⟩]
      bulletproofsPlus := if v < 14 then [⟨[0]⟩] else []
      sigData := [] }
  pruned := false

variable (v : ℕ)

theorem versionOneTx_not_forkRules : ¬ForkRules v (versionOneTx v) := by
  intro h
  by_cases hv : v < 14
  · have := (h.legacy hv).2
    simp [versionOneTx, hv] at this
  · have := h.bulletproofPlus (by omega)
    simp [versionOneTx, hv] at this

theorem getRingSize_cases : getRingSize v = 5 ∨ getRingSize v = 16 := by
  unfold getRingSize
  split
  · exact .inr rfl
  · exact .inl rfl

theorem versionOneTx_shape : InputsShape v (versionOneTx v) where
  ringSizes_ne_nil := by simp [Transaction.ringSizes, versionOneTx]
  ringSizes_const := by simp [Transaction.ringSizes, versionOneTx]
  ringSize_valid := by
    rcases getRingSize_cases v with h | h <;>
      simp [Transaction.ringSizes, versionOneTx, isValidRingSize, h]
  version_le := by simp [versionOneTx, transactionVersionMax]
  sorted := by simp [Transaction.keyImages, versionOneTx, TxIn.keyImage?]
  multiOutput := by
    rintro ⟨-, -, proof, hproof, hlen⟩
    by_cases hv : v < 14 <;> simp [versionOneTx, hv] at hproof
    simp [hproof] at hlen

theorem versionOneTx_inputs :
    checkTxInputs (Env.accepting (versionOneTx v)) (shelfChain v [(0, 16)] []) (versionOneTx v)
      = .ok 0 := by
  refine shelfChain_checkTxInputs (versionOneTx_shape v) rfl ?_ fun txin hin => ?_
  · by_cases hv : v < 14 <;> simp [versionOneTx, hv]
  · obtain rfl : txin = _ := List.mem_singleton.mp hin
    rcases getRingSize_cases v with h | h
    · rw [h]
      decide
    · rw [h]
      decide

theorem versionOneTx_outputs :
    checkTxOutputs (Env.accepting (versionOneTx v)) (shelfChain v [(0, 16)] []) (versionOneTx v)
      = .ok () := by
  rw [checkTxOutputs_ok_iff, checkTxOutputsExceptSubgroup_ok_iff, checkTxRctType_ok_iff]
  by_cases hv : v < 14
  · simp [versionOneTx, hv, RctType.isRctBulletproof, RctType.isRctBorromean, Env.accepting,
      TxOut.key?]
  · simp [versionOneTx, hv, RctType.isRctBorromean, Env.accepting,
      TxOut.key?]
    omega

theorem versionOneTx_semantic :
    checkTxSemantic (Env.accepting (versionOneTx v)) (shelfChain v [(0, 16)] []) (versionOneTx v)
      true = true := by
  rcases getRingSize_cases v with h | h <;>
    simp [checkTxSemantic, checkInputsTypesSupported, checkOutsValid, checkMoneyOverflow,
      checkInputsOverflow, checkOutsOverflow, moneyOverflows, checkTxInputsKeyimagesDiff,
      checkTxInputsRingMembersDiff, checkTxInputsKeyimagesDomain, Transaction.keyImages,
      TxIn.isToKey, TxIn.keyImage?, TxOut.key?, offsetsNonzero, versionOneTx, Env.accepting]

/-- A transaction of version 1 is accepted that breaks the rules. -/
theorem versionOneTx_accepted :
    AcceptsTx (Env.accepting (versionOneTx v)) (shelfChain v [(0, 16)] []) [] ⟨[], nullHash⟩ true
      (versionOneTx v) where
  pre := ⟨0, rfl⟩
  semantic := versionOneTx_semantic v
  outputs := versionOneTx_outputs v
  inputs := ⟨0, versionOneTx_inputs v⟩

end VersionOne

/-- At every fork version `v`, the rules of `v` bind the accepted transactions of version `t`
exactly when `t` is not 1. -/
theorem forkRules_iff_version_ne_one (v t : ℕ) :
    (∀ env bc badSemantics entry keepedByBlock tx, bc.getCurrentHardForkVersion = v →
      tx.version = t → tx.pruned = false → tx.isCoinbase = false →
      AcceptsTx env bc badSemantics entry keepedByBlock tx → ForkRules v tx) ↔ t ≠ 1 := by
  constructor
  · rintro h rfl
    exact versionOneTx_not_forkRules v
      (h _ _ _ _ _ (versionOneTx v) rfl rfl rfl rfl (versionOneTx_accepted v))
  · rintro ht env bc badSemantics entry keepedByBlock tx rfl rfl - - hacc
    obtain ⟨h, hpre⟩ := hacc.pre
    have := handleIncomingTxPre_version hpre
    exact forkRules_of_checkTxOutputs (by omega) hacc.outputs

/-- At fork version 14 a version 1 transaction of type Bulletproof2 with a single output is
accepted. -/
theorem bulletproof2_accepted_at_fourteen :
    AcceptsTx (Env.accepting (versionOneTx 14)) (shelfChain 14 [(0, 16)] []) [] ⟨[], nullHash⟩
      true (versionOneTx 14) ∧ (versionOneTx 14).isCoinbase = false ∧
    ¬ForkRules 14 (versionOneTx 14) :=
  ⟨versionOneTx_accepted 14, rfl, versionOneTx_not_forkRules 14⟩

end Nerva
