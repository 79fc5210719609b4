import Nerva.Lmdb

/-!
# The rows of a transaction

What `add_transaction` adds to the tables and what `remove_transaction` takes from them, each said
once. Ids are the sizes of tables, so that a new row never replaces one that is there.
-/

namespace Nerva

open Checks Std List Table TxIn ExtTreeMap TxTables OutputTables

namespace OutputTables

variable {env : Env} {t t' : OutputTables} {tx : Transaction} {txHash : Hash} {o : TxOut}
  {i height idx : ℕ} {unlockTime : UInt64} {commitment : Option Hash} {minerTx pseudo : Bool}

section

variable (h : t.addOutput txHash o i unlockTime height commitment = .ok (idx, t'))

include h

/-- What `add_output` inserts, under keys that were free. -/
theorem addOutput_ok :
    ∃ outputId outTx row, t.outputTxs[outputId]? = none ∧
      (t.outputAmounts.dups o.amount.toNat)[idx]? = none ∧ row.outputId = outputId ∧
      t' = ⟨t.outputTxs.insert outputId outTx, t.outputAmounts.put o.amount.toNat
        ((t.outputAmounts.dups o.amount.toNat).insert idx row)⟩ := by
  simp only [addOutput, bind_eq_ok, demand_eq_ok, exists_unit] at h
  obtain ⟨key, -, -, outputTxs, htxs, outputAmounts, hamounts, rfl, rfl⟩ := h
  obtain ⟨hfresh, rfl⟩ := append_eq_some htxs
  obtain ⟨hfresh', rfl⟩ := DupTable.append_eq_some hamounts
  exact ⟨_, _, _, hfresh, hfresh', rfl, rfl⟩

theorem removeOutput_addOutput : t'.removeOutput o.amount.toNat idx = .ok t := by
  obtain ⟨outputId, outTx, row, hfresh, hfresh', hrow, rfl⟩ := addOutput_ok h
  simp only [removeOutput, bind_eq_ok, pure_eq_ok]
  refine ⟨row, by simp, outTx, by simp [hrow], ?_⟩
  simp only [hrow, erase_insert hfresh, DupTable.erase_put_insert hfresh']

end

theorem amount_stored : (stored env tx minerTx i o).1.amount = if minerTx then 0 else o.amount := by
  cases minerTx <;> rfl

theorem length_addOutputs : ∀ {os : List TxOut} {i : ℕ} {t t' : OutputTables} {indices : List ℕ},
    addOutputs env tx txHash minerTx height i os t = .ok (indices, t') → indices.length = os.length
  | [], _, _, _, _, h => by
    cases h
    rfl
  | o :: os, i, t, _, _, h => by
    simp only [addOutputs, bind_eq_ok, Prod.exists] at h
    obtain ⟨index, t₁, -, indices, t₂, hrest, rfl, rfl⟩ := h
    rw [length_cons, length_cons, length_addOutputs hrest]

/-- Removing outputs undoes adding them, if both take them for the same amounts. -/
theorem removeOutputs_addOutputs : ∀ {os : List TxOut} {i : ℕ} {t t' : OutputTables}
    (before : List ℕ) {indices : List ℕ}, before.length = i →
    (∀ o ∈ os, (if pseudo then 0 else o.amount) = if minerTx then 0 else o.amount) →
    addOutputs env tx txHash minerTx height i os t = .ok (indices, t') →
      removeOutputs pseudo (before ++ indices) i os t' = .ok t
  | [], _, _, _, _, _, _, _, h => by
    cases h
    rfl
  | o :: os, i, t, _, before, _, hlen, hamount, h => by
    simp only [addOutputs, bind_eq_ok, pure_eq_ok, Prod.exists, Prod.mk.injEq] at h
    obtain ⟨index, t₁, hadd, indices, t₂, hrest, rfl, rfl⟩ := h
    obtain ⟨ho, hos⟩ := forall_mem_cons.1 hamount
    have ih : removeOutputs pseudo (before ++ [index] ++ indices) (i + 1) os t₂ = .ok t₁ :=
      removeOutputs_addOutputs _ (by simp [hlen]) hos hrest
    rw [append_assoc] at ih
    simp only [removeOutputs, bind_eq_ok]
    refine ⟨t₁, ih, index, by simp [← hlen], ?_⟩
    have hremove := removeOutput_addOutput hadd
    rw [amount_stored, ← ho] at hremove
    cases pseudo <;> exact hremove

/-- The number of outputs kept under amount 0. -/
def zeros (t : OutputTables) : ℕ := (t.outputAmounts.dups 0).size

theorem zeros_addOutput (h : t.addOutput txHash o i unlockTime height commitment = .ok (idx, t')) :
    t'.zeros = t.zeros + if o.amount = 0 then 1 else 0 := by
  obtain ⟨outputId, outTx, row, -, hfresh, -, rfl⟩ := addOutput_ok h
  by_cases ho : o.amount = 0
  · rw [ho] at hfresh ⊢
    exact (congrArg size DupTable.dups_put_self).trans (size_insert_of_none hfresh)
  · have hne : o.amount.toNat ≠ 0 := fun hz => ho (UInt64.toNat_inj.1 hz)
    rw [if_neg ho, zeros, DupTable.dups_put_of_ne hne, zeros, Nat.add_zero]

theorem zeros_addOutputs : ∀ {os : List TxOut} {i : ℕ} {t t' : OutputTables} {indices : List ℕ},
    addOutputs env tx txHash minerTx height i os t = .ok (indices, t') →
      t'.zeros = t.zeros + if minerTx then os.length else os.countP (·.amount = 0)
  | [], _, _, _, _, h => by
    cases h
    cases minerTx <;> rfl
  | o :: os, i, t, _, _, h => by
    simp only [addOutputs, bind_eq_ok, Prod.exists] at h
    obtain ⟨index, t₁, hadd, indices, t₂, hrest, rfl, rfl⟩ := h
    rw [zeros_addOutputs hrest, zeros_addOutput hadd, amount_stored]
    cases minerTx
    · simp only [Bool.false_eq_true, if_false, countP_cons, decide_eq_true_eq]
      omega
    · simp only [if_true, length_cons]
      omega

theorem zeros_removeOutput {amount : ℕ} (h : t.removeOutput amount idx = .ok t') :
    t.zeros = t'.zeros + if amount = 0 then 1 else 0 := by
  simp only [removeOutput, bind_eq_ok, demand_eq_ok, pure_eq_ok] at h
  obtain ⟨row, hrow, -, -, rfl⟩ := h
  by_cases h0 : amount = 0
  · subst h0
    simp only [zeros, DupTable.erase, DupTable.dups_put_self]
    exact (size_erase_of_some hrow).symm
  · rw [if_neg h0, zeros, zeros, DupTable.erase, DupTable.dups_put_of_ne h0, Nat.add_zero]

theorem zeros_removeOutputs {indices : List ℕ} :
    ∀ {os : List TxOut} {i : ℕ} {t' : OutputTables},
    removeOutputs pseudo indices i os t = .ok t' →
      t.zeros = t'.zeros + if pseudo then os.length else os.countP (·.amount = 0)
  | [], _, _, h => by
    cases h
    cases pseudo <;> rfl
  | o :: os, i, t', h => by
    simp only [removeOutputs, bind_eq_ok] at h
    obtain ⟨t₁, hrest, index, -, hremove⟩ := h
    rw [zeros_removeOutputs hrest, zeros_removeOutput hremove]
    cases pseudo
    · simp only [Bool.false_eq_true, if_false, countP_cons, decide_eq_true_eq,
        ← UInt64.toNat_inj, UInt64.toNat_zero]
      omega
    · simp only [if_true, length_cons]
      omega

end OutputTables

def TxIn.supported : TxIn → Bool
  | .gen _ | .toKey .. => true
  | _ => false

def TxIn.isGen : TxIn → Bool
  | .gen _ => true
  | _ => false

section Inputs

variable {spentKeys spentKeys' : Table KeyImage Unit} {k : KeyImage}

theorem getElem?_foldl_erase : ∀ (ks : List KeyImage) (t : Table KeyImage Unit),
    (ks.foldl (fun keys k => keys.erase k) t)[k]? = if k ∈ ks then none else t[k]?
  | [], _ => by simp
  | k' :: ks, t => by
    rw [foldl_cons, getElem?_foldl_erase ks]
    by_cases hk : k' = k
    · subst hk
      simp
    · rw [getElem?_erase_of_ne hk]
      simp [Ne.symm hk]

theorem foldl_erase_erase (ks : List KeyImage) (t : Table KeyImage Unit) (k : KeyImage) :
    ks.foldl (fun keys k => keys.erase k) (t.erase k) =
      (ks.foldl (fun keys k => keys.erase k) t).erase k := by
  refine ext_getElem? fun k' => ?_
  by_cases hk : k = k'
  · subst hk
    simp [getElem?_foldl_erase]
  · rw [getElem?_erase_of_ne hk, getElem?_foldl_erase, getElem?_foldl_erase,
      getElem?_erase_of_ne hk]

theorem addInputs_flag : ∀ {vin : List TxIn} {spentKeys : Table KeyImage Unit} {minerTx : Bool}
    {flag : Option Bool}, addInputs spentKeys minerTx vin = .ok (spentKeys', flag) →
      flag = if vin.all supported then some (minerTx || vin.any isGen) else none
  | [], _, _, _, h => by
    cases h
    simp
  | .toKey _ _ k :: rest, spentKeys, minerTx, flag, h => by
    simp only [addInputs, bind_eq_ok] at h
    obtain ⟨keys, -, hrest⟩ := h
    rw [addInputs_flag hrest]
    simp [supported, isGen]
  | .gen _ :: rest, spentKeys, minerTx, flag, h => by
    rw [addInputs] at h
    rw [addInputs_flag h]
    simp [supported, isGen]
  | .toScript :: rest, _, _, _, h => by
    cases h
    simp [supported]
  | .toScripthash :: rest, _, _, _, h => by
    cases h
    simp [supported]

/-- Erasing the key images undoes adding the inputs. -/
theorem removeKeys_addInputs : ∀ {vin : List TxIn} {spentKeys : Table KeyImage Unit}
    {minerTx flag : Bool}, addInputs spentKeys minerTx vin = .ok (spentKeys', some flag) →
      (vin.filterMap keyImage?).foldl (fun keys k => keys.erase k) spentKeys' = spentKeys
  | [], _, _, _, h => by
    cases h
    rfl
  | .toKey _ _ k :: rest, spentKeys, minerTx, flag, h => by
    simp only [addInputs, addSpentKey, bind_eq_ok, require_eq_ok, exists_unit, pure_eq_ok] at h
    obtain ⟨keys, ⟨hnone, rfl⟩, hrest⟩ := h
    simp only [filterMap_cons, keyImage?]
    rw [foldl_cons, foldl_erase_erase, removeKeys_addInputs hrest, erase_insert hnone]
  | .gen _ :: rest, spentKeys, minerTx, flag, h => by
    simp only [filterMap_cons]
    exact removeKeys_addInputs h
  | .toScript :: rest, _, _, _, h => by cases h
  | .toScripthash :: rest, _, _, _, h => by cases h

end Inputs

/-- The outputs are removed under the amounts that they were added under: only a miner transaction
has inputs of type `txin_gen`, or else all amounts are 0. -/
def Transaction.AmountsKept (tx : Transaction) : Prop :=
  tx.vin.any TxIn.isGen = true → tx.isCoinbase = true ∨ ∀ o ∈ tx.vout, o.amount = 0

variable {tx : Transaction}

theorem Transaction.isGen_of_isCoinbase (h : tx.isCoinbase = true) :
    tx.vin.any isGen = true := by
  unfold isCoinbase at h
  split at h
  · rename_i heq
    rw [heq]
    rfl
  · cases h

theorem Transaction.AmountsKept.amount_eq (h : tx.AmountsKept) {o : TxOut} (ho : o ∈ tx.vout) :
    (if tx.isCoinbase = true then 0 else o.amount) =
      if tx.vin.any isGen = true then 0 else o.amount := by
  by_cases hgen : tx.vin.any isGen = true
  · rw [if_pos hgen]
    rcases h hgen with hcoinbase | hzero
    · rw [if_pos hcoinbase]
    · rw [hzero o ho, ite_self]
  · rw [if_neg hgen, if_neg fun hc => hgen (isGen_of_isCoinbase hc)]

/-- The outputs that are added under amount 0. -/
def Transaction.zerosAdded (tx : Transaction) : ℕ :=
  if tx.vin.any TxIn.isGen then tx.vout.length else tx.vout.countP (·.amount = 0)

/-- The outputs that are removed from under amount 0. -/
def Transaction.zerosRemoved (tx : Transaction) : ℕ :=
  if tx.isCoinbase then tx.vout.length else tx.vout.countP (·.amount = 0)

theorem Transaction.zerosRemoved_le (tx : Transaction) : tx.zerosRemoved ≤ tx.zerosAdded := by
  unfold zerosRemoved zerosAdded
  by_cases hgen : tx.vin.any isGen = true
  · rw [if_pos hgen]
    split
    · exact Nat.le_refl _
    · exact countP_le_length
  · have hnot : ¬tx.isCoinbase = true := fun hc => hgen (isGen_of_isCoinbase hc)
    simp only [if_neg hgen, if_neg hnot, Nat.le_refl]

theorem Transaction.amountsKept_of_zeros_eq (h : tx.zerosRemoved = tx.zerosAdded) :
    tx.AmountsKept := by
  intro hgen
  unfold zerosRemoved zerosAdded at h
  rw [if_pos hgen] at h
  by_cases hcoinbase : tx.isCoinbase = true
  · exact .inl hcoinbase
  · rw [if_neg hcoinbase, countP_eq_length] at h
    exact .inr fun o ho => by simpa using h o ho

namespace Lmdb

/-- Every transaction of the index has its own rows. -/
structure Indexed (db : Lmdb) : Prop where
  pruned : ∀ (h : Hash) (ti : TxIndex), db.txIndices[h]? = some ti →
    db.txsPruned[ti.txId]?.isSome
  injective : ∀ (h h' : Hash) (ti ti' : TxIndex), db.txIndices[h]? = some ti →
    db.txIndices[h']? = some ti' → ti.txId = ti'.txId → h = h'
  tips : ∀ id b : ℕ, db.txsPrunableTip[id]? = some b →
    ∃ (h : Hash) (ti : TxIndex), db.txIndices[h]? = some ti ∧ ti.txId = id ∧ ti.blockId = b

/-- What `add_transaction` adds. -/
structure AddsTx (env : DbEnv) (db : Lmdb) (tx : Transaction) (blob : Blob) (txHash : Hash)
    (db' : Lmdb) : Prop where
  supported : tx.vin.all TxIn.supported = true
  freshIndex : db.txIndices[txHash]? = none
  freshPruned : db.txsPruned[db.txsPruned.size]? = none
  freshPrunable : db.txsPrunable[db.txsPruned.size]? = none
  freshHash : 1 < tx.version → db.txsPrunableHash[db.txsPruned.size]? = none
  freshOutputs : db.txOutputs[db.txsPruned.size]? = none
  inputs : addInputs db.spentKeys false tx.vin = .ok (db'.spentKeys, some (tx.vin.any TxIn.isGen))
  outputs : ∃ indices,
    OutputTables.addOutputs env.toEnv tx txHash (tx.vin.any TxIn.isGen) db.height 0
      tx.vout db.toOutputTables = .ok (indices, db'.toOutputTables) ∧
    db'.txOutputs = db.txOutputs.insert db.txsPruned.size indices
  txIndices : db'.txIndices =
    db.txIndices.insert txHash ⟨db.txsPruned.size, tx.unlockTime, db.height⟩
  txsPruned : db'.txsPruned =
    db.txsPruned.insert db.txsPruned.size (blob.take (env.unprunableSize tx))
  txsPrunable : db'.txsPrunable =
    db.txsPrunable.insert db.txsPruned.size (blob.drop (env.unprunableSize tx))
  txsPrunableTip : db'.txsPrunableTip = if db.getBlockchainPruningSeed ≠ 0 then
      db.txsPrunableTip.insert db.txsPruned.size db.height
    else db.txsPrunableTip
  txsPrunableHash : db'.txsPrunableHash = if 1 < tx.version then
      db.txsPrunableHash.insert db.txsPruned.size (env.prunableHash tx blob)
    else db.txsPrunableHash
  blockTables : db'.toBlockTables = db.toBlockTables
  pruningSeed : db'.pruningSeed = db.pruningSeed

/-- What a transaction has taken from the tables, found under `ti` with the base `tx`. -/
structure RemovesTx (env : DbEnv) (db : Lmdb) (txHash : Hash) (ti : TxIndex) (tx : Transaction)
    (db' : Lmdb) : Prop where
  index : db.txIndices[txHash]? = some ti
  base : db.txsPruned[ti.txId]?.bind env.parseTxBase = some tx
  outputs : ∃ indices, db.txOutputs[ti.txId]? = some indices ∧
    OutputTables.removeOutputs tx.isCoinbase indices 0 tx.vout db.toOutputTables =
      .ok db'.toOutputTables
  txIndices : db'.txIndices = db.txIndices.erase txHash
  txsPruned : db'.txsPruned = db.txsPruned.erase ti.txId
  txsPrunable : db'.txsPrunable = db.txsPrunable.erase ti.txId
  txsPrunableTip : db'.txsPrunableTip = db.txsPrunableTip.erase ti.txId
  blockTables : db'.toBlockTables = db.toBlockTables
  pruningSeed : db'.pruningSeed = db.pruningSeed

variable {env : DbEnv} {db db' : Lmdb} {tx : Transaction} {blob : Blob} {txHash : Hash}
  {ti : TxIndex} {e : TxEntry env}

/-- A transaction is added, or left out because of an input that is not supported. -/
theorem addTransaction_cases (h : db.addTransaction env tx blob txHash = .ok db') :
    AddsTx env db tx blob txHash db' ∨
      tx.vin.all supported = false ∧ ∃ keys, db' = { db with spentKeys := keys } := by
  simp only [addTransaction, bind_eq_ok, Prod.exists] at h
  obtain ⟨keys, flag, hinputs, h⟩ := h
  have hflag := addInputs_flag hinputs
  cases flag with
  | none =>
    refine .inr ⟨by simpa using hflag, ?_⟩
    simp only [pure_eq_ok] at h
    exact ⟨_, h.symm⟩
  | some minerTx =>
    left
    split at hflag
    · rename_i hsupported
      cases hflag
      simp only [bind_eq_ok, Prod.exists, addTransactionData, require_eq_ok, exists_unit,
        demand_eq_ok, pure_eq_ok] at h
      obtain ⟨txId, txs, ⟨hindex, -, pruned, hpruned, prunable, hprunable, hashes, hhashes,
        rfl, rfl⟩,
        indices, outputs, houtputs, txOutputs, htxOutputs, rfl⟩ := h
      obtain ⟨hfreshPruned, rfl⟩ := append_eq_some hpruned
      obtain ⟨hfreshPrunable, rfl⟩ := append_eq_some hprunable
      obtain ⟨hfreshOutputs, rfl⟩ := append_eq_some htxOutputs
      have hhash : (1 < tx.version → db.txsPrunableHash[db.txsPruned.size]? = none) ∧
          hashes = if 1 < tx.version then
            db.txsPrunableHash.insert db.txsPruned.size (env.prunableHash tx blob)
          else db.txsPrunableHash := by
        unfold addPrunableHash at hhashes
        by_cases hv : 1 < tx.version
        · rw [if_pos hv, demand_eq_ok] at hhashes
          obtain ⟨hfresh, rfl⟩ := append_eq_some hhashes
          exact ⟨fun _ => hfresh, (if_pos hv).symm⟩
        · rw [if_neg hv] at hhashes ⊢
          exact ⟨fun hc => absurd hc hv, (Except.ok.inj hhashes).symm⟩
      exact
        { supported := hsupported, freshIndex := hindex, freshPruned := hfreshPruned
          freshPrunable := hfreshPrunable, freshHash := hhash.1, freshOutputs := hfreshOutputs
          inputs := hinputs, outputs := ⟨indices, houtputs, rfl⟩, txIndices := rfl, txsPruned := rfl
          txsPrunable := rfl, txsPrunableTip := rfl, txsPrunableHash := hhash.2, blockTables := rfl
          pruningSeed := rfl }
    · cases hflag

theorem removeTransaction_ok (h : db.removeTransaction env txHash = .ok db') :
    ∃ ti tx, RemovesTx env db txHash ti tx db' := by
  simp only [removeTransaction, getPrunedTx, getPrunedTxBlob,
    removeTransactionData, removePrunable, removeTxOutputs, bind_eq_ok, demand_eq_ok,
    exists_unit, pure_eq_ok] at h
  obtain ⟨tx, ⟨bd, hbd, hparse⟩, ti, hti, txs, ⟨-, -, hashes, -, rfl⟩, outputs,
    ⟨indices, hindices, -, houtputs⟩, rfl⟩ := h
  rw [hti, Option.bind_some] at hbd
  refine ⟨ti, tx, hti, ?_, ⟨indices, hindices, houtputs⟩, rfl, rfl, rfl, rfl, rfl, rfl⟩
  rw [hbd, Option.bind_some, hparse]

theorem removeTransaction_eq_ok {hashes : Table ℕ Hash} {indices : List ℕ} {outputs : OutputTables}
    (hindex : db.txIndices[txHash]? = some ti) (hpruned : db.txsPruned[ti.txId]? = some blob)
    (hparse : env.parseTxBase blob = some tx)
    (hhash : db.toTxTables.removePrunableHash ti.txId tx.version = .ok hashes)
    (hindices : db.txOutputs[ti.txId]? = some indices) (hne : indices = [] → tx.vout = [])
    (houtputs : removeOutputs tx.isCoinbase indices 0 tx.vout db.toOutputTables =
      .ok outputs) :
    db.removeTransaction env txHash = .ok
      { db with
        toTxTables :=
          { txIndices := db.txIndices.erase txHash
            txsPruned := db.txsPruned.erase ti.txId
            txsPrunable := db.txsPrunable.erase ti.txId
            txsPrunableHash := hashes
            txsPrunableTip := db.txsPrunableTip.erase ti.txId
            txOutputs := db.txOutputs.erase ti.txId }
        toOutputTables := outputs
        spentKeys := removeSpentKeys db.spentKeys tx } := by
  simp only [removeTransaction, getPrunedTx, getPrunedTxBlob,
    removeTransactionData, removePrunable, removeTxOutputs, bind_eq_ok, demand_eq_ok,
    require_eq_ok, exists_unit, hindex]
  exact ⟨tx, ⟨blob, hpruned, hparse⟩, ti, rfl, _, ⟨blob, hpruned, hashes, hhash, rfl⟩, outputs,
    ⟨indices, hindices, hne, houtputs⟩, rfl⟩

theorem ext_tables {a b : Lmdb} (hblocks : a.toBlockTables = b.toBlockTables)
    (htxs : a.toTxTables = b.toTxTables) (houtputs : a.toOutputTables = b.toOutputTables)
    (hkeys : a.spentKeys = b.spentKeys) (hseed : a.pruningSeed = b.pruningSeed) : a = b := by
  cases a
  cases b
  simp_all

theorem AddsTx.hash_ne (hadd : AddsTx env db tx blob txHash db') {h : Hash}
    (hti : db.txIndices[h]? = some ti) : txHash ≠ h := by
  rintro rfl
  rw [hadd.freshIndex] at hti
  cases hti

section Adds

variable (hadd : AddsTx env db tx blob txHash db') (hindexed : db.Indexed)
include hadd hindexed

theorem AddsTx.id_ne {h : Hash} {ti : TxIndex} (hti : db.txIndices[h]? = some ti) :
    db.txsPruned.size ≠ ti.txId := by
  intro heq
  have hrow := hindexed.pruned h ti hti
  rw [← heq, hadd.freshPruned] at hrow
  cases hrow

theorem AddsTx.freshTip : db.txsPrunableTip[db.txsPruned.size]? = none := by
  cases htip : db.txsPrunableTip[db.txsPruned.size]? with
  | none => rfl
  | some b =>
    obtain ⟨h, ti, hti, hid, -⟩ := hindexed.tips _ b htip
    exact absurd hid.symm (hadd.id_ne hindexed hti)

theorem AddsTx.indexed : db'.Indexed := by
  have hindices := hadd.txIndices
  refine ⟨fun h ti hti => ?_, fun h h' ti ti' hti hti' hid => ?_, fun id b htip => ?_⟩
  · rw [hadd.txsPruned]
    rw [hindices] at hti
    rcases getElem?_insert_eq_some.1 hti with ⟨rfl, rfl⟩ | ⟨-, hti⟩
    · simp
    · rw [getElem?_insert_of_ne (hadd.id_ne hindexed hti)]
      exact hindexed.pruned h ti hti
  · rw [hindices] at hti hti'
    rcases getElem?_insert_eq_some.1 hti with ⟨rfl, rfl⟩ | ⟨-, hti⟩
    · rcases getElem?_insert_eq_some.1 hti' with ⟨rfl, -⟩ | ⟨-, hti'⟩
      · rfl
      · exact absurd hid (hadd.id_ne hindexed hti')
    · rcases getElem?_insert_eq_some.1 hti' with ⟨-, rfl⟩ | ⟨-, hti'⟩
      · exact absurd hid.symm (hadd.id_ne hindexed hti)
      · exact hindexed.injective h h' ti ti' hti hti' hid
  · have hold : db.txsPrunableTip[id]? = some b →
        ∃ (h : Hash) (ti : TxIndex),
          db'.txIndices[h]? = some ti ∧ ti.txId = id ∧ ti.blockId = b := by
      intro htip
      obtain ⟨h, ti, hti, hid, hb⟩ := hindexed.tips id b htip
      exact ⟨h, ti, by rw [hindices, getElem?_insert_of_ne (hadd.hash_ne hti), hti],
        hid, hb⟩
    rw [hadd.txsPrunableTip] at htip
    split at htip
    · rcases getElem?_insert_eq_some.1 htip with ⟨rfl, rfl⟩ | ⟨-, htip⟩
      · exact ⟨txHash, _, by rw [hindices, getElem?_insert_self], rfl, rfl⟩
      · exact hold htip
    · exact hold htip

/-- Removing the transaction just added restores the tables. -/
theorem AddsTx.removeTransaction (hbase : HoldsBase env tx blob) (hkept : tx.AmountsKept) :
    db'.removeTransaction env txHash = .ok db := by
  obtain ⟨base, hparse, hversion, hvin, hvout⟩ := hbase
  obtain ⟨indices, houtputs, htxOutputs⟩ := hadd.outputs
  have hlen := length_addOutputs houtputs
  have hcoinbase : base.isCoinbase = tx.isCoinbase := by
    unfold Transaction.isCoinbase
    rw [hvin]
  have hremove : removeOutputs tx.isCoinbase indices 0 tx.vout db'.toOutputTables =
      .ok db.toOutputTables :=
    removeOutputs_addOutputs [] rfl (fun o ho => hkept.amount_eq ho) houtputs
  have hkeys : removeSpentKeys db'.spentKeys base = db.spentKeys := by
    rw [removeSpentKeys, Transaction.keyImages, hvin]
    exact removeKeys_addInputs hadd.inputs
  have htip : db'.txsPrunableTip.erase db.txsPruned.size = db.txsPrunableTip := by
    have hfresh := hadd.freshTip hindexed
    rw [hadd.txsPrunableTip]
    split
    · exact erase_insert hfresh
    · exact erase_of_none hfresh
  have hhash : db'.toTxTables.removePrunableHash db.txsPruned.size tx.version =
      .ok db.txsPrunableHash := by
    rw [removePrunableHash, hadd.txsPrunableHash]
    by_cases hv : 1 < tx.version
    · simp only [if_pos hv, bind_eq_ok, demand_eq_ok, pure_eq_ok]
      exact ⟨_, getElem?_insert_self, erase_insert (hadd.freshHash hv)⟩
    · rw [if_neg hv, if_neg hv]
  have hindex : db'.txIndices[txHash]? = some ⟨db.txsPruned.size, tx.unlockTime, db.height⟩ := by
    rw [hadd.txIndices, getElem?_insert_self]
  have hpruned : db'.txsPruned[db.txsPruned.size]? = some (blob.take (env.unprunableSize tx)) := by
    rw [hadd.txsPruned, getElem?_insert_self]
  have hindices : db'.txOutputs[db.txsPruned.size]? = some indices := by
    rw [htxOutputs, getElem?_insert_self]
  have hne : indices = [] → base.vout = [] := by
    rintro rfl
    rw [hvout]
    exact length_eq_zero_iff.1 hlen.symm
  rw [← hcoinbase, ← hvout] at hremove
  rw [removeTransaction_eq_ok hindex hpruned hparse (hversion ▸ hhash) hindices hne hremove]
  refine congrArg Except.ok (ext_tables hadd.blockTables ?_ rfl hkeys hadd.pruningSeed)
  simp only [htip, htxOutputs, hadd.txIndices, hadd.txsPruned, hadd.txsPrunable,
    erase_insert hadd.freshIndex, erase_insert hadd.freshPruned,
    erase_insert hadd.freshPrunable, erase_insert hadd.freshOutputs]

end Adds

/-- The transaction is stored with both parts of its blob. -/
def Holds (db : Lmdb) (txHash : Hash) (e : TxEntry env) : Prop :=
  ∃ ti : TxIndex, db.txIndices[txHash]? = some ti ∧
    db.txsPruned[ti.txId]? = some (e.blob.take (env.unprunableSize e.tx)) ∧
    db.txsPrunable[ti.txId]? = some (e.blob.drop (env.unprunableSize e.tx))

theorem AddsTx.holds (hadd : AddsTx env db e.tx e.blob txHash db') : db'.Holds txHash e := by
  refine ⟨_, by rw [hadd.txIndices, getElem?_insert_self], ?_, ?_⟩
  · rw [hadd.txsPruned, getElem?_insert_self]
  · rw [hadd.txsPrunable, getElem?_insert_self]

/-- Adding a transaction keeps those that are stored. -/
theorem AddsTx.holds_of_holds (hadd : AddsTx env db tx blob txHash db') (hindexed : db.Indexed)
    {h : Hash} (hold : db.Holds h e) : db'.Holds h e := by
  obtain ⟨ti, hti, hpruned, hprunable⟩ := hold
  have hid := hadd.id_ne hindexed hti
  refine ⟨ti, ?_, ?_, ?_⟩
  · rw [hadd.txIndices, getElem?_insert_of_ne (hadd.hash_ne hti), hti]
  · rw [hadd.txsPruned, getElem?_insert_of_ne hid, hpruned]
  · rw [hadd.txsPrunable, getElem?_insert_of_ne hid, hprunable]

section Removes

variable {ti : TxIndex} (hrem : RemovesTx env db txHash ti tx db') (hindexed : db.Indexed)
include hrem hindexed

theorem RemovesTx.id_ne {h : Hash} {ti' : TxIndex} (hne : txHash ≠ h)
    (hti : db.txIndices[h]? = some ti') : ti.txId ≠ ti'.txId := fun heq =>
  hne (hindexed.injective _ _ _ _ hrem.index hti heq)

theorem RemovesTx.indexed : db'.Indexed := by
  have hindices := hrem.txIndices
  refine ⟨fun h ti' hti => ?_, fun h h' ti₁ ti₂ hti₁ hti₂ => ?_, fun id b htip => ?_⟩
  · rw [hindices] at hti
    obtain ⟨hne, hti⟩ := getElem?_erase_eq_some.1 hti
    rw [hrem.txsPruned, getElem?_erase_of_ne (hrem.id_ne hindexed hne hti)]
    exact hindexed.pruned h ti' hti
  · rw [hindices] at hti₁ hti₂
    exact hindexed.injective h h' ti₁ ti₂ (getElem?_erase_eq_some.1 hti₁).2
      (getElem?_erase_eq_some.1 hti₂).2
  · rw [hrem.txsPrunableTip] at htip
    obtain ⟨hne, htip⟩ := getElem?_erase_eq_some.1 htip
    obtain ⟨h, ti', hti, hid, hb⟩ := hindexed.tips id b htip
    refine ⟨h, ti', ?_, hid, hb⟩
    rw [hindices]
    refine getElem?_erase_eq_some.2 ⟨?_, hti⟩
    rintro rfl
    rw [hrem.index] at hti
    cases hti
    exact hne hid

/-- Removing a transaction keeps the others. -/
theorem RemovesTx.holds_of_ne {h : Hash} {e : TxEntry env} (hne : txHash ≠ h)
    (hold : db.Holds h e) : db'.Holds h e := by
  obtain ⟨ti', hti, hpruned, hprunable⟩ := hold
  have hid := hrem.id_ne hindexed hne hti
  refine ⟨ti', ?_, ?_, ?_⟩
  · rw [hrem.txIndices, getElem?_erase_of_ne hne, hti]
  · rw [hrem.txsPruned, getElem?_erase_of_ne hid, hpruned]
  · rw [hrem.txsPrunable, getElem?_erase_of_ne hid, hprunable]

end Removes

theorem AddsTx.zeros (hadd : AddsTx env db tx blob txHash db') :
    db'.toOutputTables.zeros = db.toOutputTables.zeros + tx.zerosAdded := by
  obtain ⟨indices, houtputs, -⟩ := hadd.outputs
  exact zeros_addOutputs houtputs

theorem AddsTx.size (hadd : AddsTx env db tx blob txHash db') :
    db'.txIndices.size = db.txIndices.size + 1 := by
  rw [hadd.txIndices, size_insert_of_none hadd.freshIndex]

variable (hrem : RemovesTx env db txHash ti tx db')

include hrem

theorem RemovesTx.zeros : db.toOutputTables.zeros = db'.toOutputTables.zeros + tx.zerosRemoved := by
  obtain ⟨indices, -, houtputs⟩ := hrem.outputs
  exact zeros_removeOutputs houtputs

theorem RemovesTx.size : db.txIndices.size = db'.txIndices.size + 1 := by
  rw [hrem.txIndices, size_erase_of_some hrem.index]

theorem RemovesTx.zerosRemoved (hold : db.Holds txHash e) :
    tx.zerosRemoved = e.tx.zerosRemoved := by
  obtain ⟨ti', hti, hpruned, -⟩ := hold
  rw [hrem.index] at hti
  cases hti
  obtain ⟨base, hparse, -, hvin, hvout⟩ := e.holdsBase
  have hbase := hrem.base
  rw [hpruned, Option.bind_some, hparse] at hbase
  cases hbase
  unfold Transaction.zerosRemoved Transaction.isCoinbase
  rw [hvin, hvout]

end Lmdb

end Nerva
