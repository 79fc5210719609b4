import Nerva.TxChecks

/-!
# What the input checks establish

`check_tx_inputs` opened once: the tests on the transaction alone, the ring members each input
resolves to, and the height the age test is made on. The output table lists the outputs of an
amount in the order of the blocks that created them.
-/

namespace Nerva

open Checks List Option

variable {env : Env} {bc : Blockchain} {tx : Transaction} {txin : TxIn} {m : ℕ}

section Outputs

variable {x : UInt64 × OutputData}

theorem mem_outputs_height {height : ℕ} {b : BlockInfo} (hx : x ∈ b.outputs env height) :
    x.2.height = height := by
  have htx : ∀ (tx : Transaction) (mask : ℕ → TxOut → Hash) (amount : TxOut → UInt64),
      x ∈ tx.tableOutputs height mask amount → x.2.height = height := by
    intro tx mask amount h
    simp only [Transaction.tableOutputs, mem_filterMap, map_eq_some_iff] at h
    obtain ⟨-, -, -, -, rfl⟩ := h
    rfl
  simp only [BlockInfo.outputs, mem_append, mem_flatMap] at hx
  rcases hx with h | ⟨tx, -, h⟩
  · exact htx _ _ _ h
  · exact htx _ _ _ h

theorem mem_outputsFrom_height : ∀ {height : ℕ} {bs : List BlockInfo},
    x ∈ outputsFrom env height bs → height ≤ x.2.height ∧ x.2.height < height + bs.length
  | _, [], h => by simp [outputsFrom] at h
  | height, b :: bs, h => by
    simp only [outputsFrom, mem_append] at h
    rcases h with h | h
    · have := mem_outputs_height h
      simp only [length_cons]
      omega
    · have := mem_outputsFrom_height h
      simp only [length_cons]
      omega

theorem outputsFrom_pairwise_height : ∀ (height : ℕ) (bs : List BlockInfo),
    (outputsFrom env height bs).Pairwise fun x y => x.2.height ≤ y.2.height
  | _, [] => List.Pairwise.nil
  | height, b :: bs => by
    rw [outputsFrom, pairwise_append]
    refine ⟨pairwise_of_forall_mem_list fun x hx y hy => ?_,
      outputsFrom_pairwise_height (height + 1) bs, fun x hx y hy => ?_⟩
    · exact Nat.le_of_eq ((mem_outputs_height hx).trans (mem_outputs_height hy).symm)
    · have := mem_outputs_height hx
      have := mem_outputsFrom_height hy
      omega

theorem outputsOf_pairwise_height (db : BlockchainDB) (amount : UInt64) :
    (db.outputsOf env amount).Pairwise fun x y => x.height ≤ y.height :=
  ((outputsFrom_pairwise_height 0 db.blocks).filter _).map _ fun _ _ h => h

/-- Outputs of one amount are numbered in the order of their heights. -/
theorem getOutputKey?_height_le {db : BlockchainDB} {amount : UInt64} {v2 : Bool} {i j : UInt64}
    {x y : OutputData} (hij : i ≤ j) (hx : db.getOutputKey? env amount v2 i = some x)
    (hy : db.getOutputKey? env amount v2 j = some y) : x.height ≤ y.height := by
  simp only [BlockchainDB.getOutputKey?, map_eq_some_iff] at hx hy
  obtain ⟨x', hx', rfl⟩ := hx
  obtain ⟨y', hy', rfl⟩ := hy
  have hle : x'.height ≤ y'.height := by
    obtain ⟨hi, rfl⟩ := List.getElem?_eq_some_iff.mp hx'
    obtain ⟨hj, rfl⟩ := List.getElem?_eq_some_iff.mp hy'
    rcases Nat.lt_or_eq_of_le (UInt64.le_iff_toNat_le.mp hij) with h | h
    · exact pairwise_iff_getElem.mp (outputsOf_pairwise_height db amount) _ _ hi hj h
    · simp only [h, Nat.le_refl]
  split <;> exact hle

end Outputs

def Blockchain.scanEntry (bc : Blockchain) (txPrefixHash : Hash) (kImage : KeyImage) :
    Option (List OutputData) :=
  (bc.scanTable.lookup txPrefixHash).bind (·.lookup kImage)

/-- The output is a member of the ring. -/
def IsMember (env : Env) (bc : Blockchain) (amount : UInt64) (i : UInt64) (o : OutputData) : Prop :=
  ∃ o', bc.db.getOutputKey? env amount (bulletproofFullForkHeight ≤ bc.getCurrentHardForkVersion) i
    = some o' ∧ o.height = o'.height

/-- The scan table's entries for the inputs of `tx` are the database's outputs at the first
indices of their rings. `prepare_handle_incoming_blocks` fills the table so. -/
def ScanTableOk (env : Env) (bc : Blockchain) (tx : Transaction) : Prop :=
  ∀ amount keyOffsets kImage outputs, .toKey amount keyOffsets kImage ∈ tx.vin →
    bc.scanEntry (env.txPrefixHash tx) kImage = some outputs →
    List.Forall₂ (IsMember env bc amount)
      ((relativeOutputOffsetsToAbsolute keyOffsets).take outputs.length) outputs

section Ring

variable {amount : UInt64} {kImage : KeyImage} {keyOffsets : List UInt64}

theorem getOutputKeys_members : ∀ (offsets : List UInt64),
    List.Forall₂ (IsMember env bc amount)
      (offsets.take (bc.db.getOutputKeys env amount
        (bulletproofFullForkHeight ≤ bc.getCurrentHardForkVersion) offsets).length)
      (bc.db.getOutputKeys env amount
        (bulletproofFullForkHeight ≤ bc.getCurrentHardForkVersion) offsets)
  | [] => by simp [BlockchainDB.getOutputKeys]
  | i :: rest => by
    rw [BlockchainDB.getOutputKeys]
    split
    · simp
    · rename_i o ho
      exact .cons ⟨o, ho, rfl⟩ (getOutputKeys_members rest)

theorem visitOutputs_members : ∀ {outputs visited : List OutputData} {offsets : List UInt64},
    List.Forall₂ (IsMember env bc amount) (offsets.take outputs.length) outputs →
    visitOutputs env bc amount (bulletproofFullForkHeight ≤ bc.getCurrentHardForkVersion) outputs
      offsets = some visited →
    List.Forall₂ (IsMember env bc amount) offsets visited
  | _, _, [], _, hv => by
    simp only [visitOutputs, some.injEq] at hv
    exact hv ▸ .nil
  | outputs, visited, i :: rest, hm, hv => by
    simp only [visitOutputs, bind_eq_bind, bind_eq_some_iff] at hv
    obtain ⟨o, ho, hv⟩ := hv
    split at hv
    · simp only [bind_eq_some_iff, pure, some.injEq] at hv
      obtain ⟨tail, htail, rfl⟩ := hv
      cases outputs with
      | nil =>
        have hdb : IsMember env bc amount i o := ⟨o, by simpa using ho, rfl⟩
        exact .cons hdb (visitOutputs_members (by simp) htail)
      | cons o' os =>
        obtain ⟨hhead, hrest⟩ := forall₂_cons.mp hm
        have : o' = o := by simpa using ho
        exact .cons (this ▸ hhead) (visitOutputs_members hrest htail)
    · cases hv

theorem ringOutputs_members {outputs : List OutputData} (hscan : ScanTableOk env bc tx)
    (hin : .toKey amount keyOffsets kImage ∈ tx.vin)
    (h : ringOutputs env bc amount kImage (env.txPrefixHash tx)
      (bulletproofFullForkHeight ≤ bc.getCurrentHardForkVersion)
      (relativeOutputOffsetsToAbsolute keyOffsets) = some outputs) :
    List.Forall₂ (IsMember env bc amount)
      ((relativeOutputOffsetsToAbsolute keyOffsets).take outputs.length) outputs := by
  unfold ringOutputs at h
  split at h
  · -- not in the scan table: the database's own answer
    simp only [ite_none_right_eq_some, some.injEq] at h
    obtain ⟨-, rfl⟩ := h
    exact getOutputKeys_members _
  · rename_i known hknown
    have hk := hscan _ _ _ known hin hknown
    split_ifs at h
    · -- a partial entry, completed from the database
      simp only [ite_none_right_eq_some, some.injEq] at h
      obtain ⟨-, rfl⟩ := h
      rw [length_append, take_add]
      exact rel_append hk (getOutputKeys_members _)
    · simp only [some.injEq] at h
      exact h ▸ hk

/-- An accepted input resolves every index of its ring to an output of the database; the height it
reports is that of the last one. -/
theorem checkTxInput_members {ring : List CtKey} {height : ℕ} (hscan : ScanTableOk env bc tx)
    (hin : .toKey amount keyOffsets kImage ∈ tx.vin)
    (h : checkTxInput env bc amount keyOffsets kImage (env.txPrefixHash tx) = some (ring, height)) :
    ∃ outputs last, List.Forall₂ (IsMember env bc amount)
      (relativeOutputOffsetsToAbsolute keyOffsets) outputs ∧
      outputs.getLast? = some last ∧ last.height = height := by
  simp only [checkTxInput, bind_eq_bind, bind_eq_some_iff,
    ite_none_right_eq_some, pure, some.injEq, Prod.mk.injEq] at h
  obtain ⟨outputs, hscanned, last, hlast, -, -, hheight⟩ := h
  simp only [scanOutputkeysForIndexes] at hscanned
  split at hscanned
  · cases hscanned
  · obtain ⟨known, hknown, hvisit⟩ := bind_eq_some_iff.mp hscanned
    exact ⟨outputs, last, visitOutputs_members (ringOutputs_members hscan hin hknown) hvisit,
      hlast, hheight⟩

end Ring

theorem checkInputsStep_ok_iff {txPrefixHash : Hash} {acc acc' : ℕ × List (List CtKey)} :
    checkInputsStep env bc txPrefixHash acc txin = .ok acc' ↔
      ∃ amount keyOffsets kImage ring height, txin = .toKey amount keyOffsets kImage ∧
        keyOffsets ≠ [] ∧
        (bc.getCurrentHardForkVersion < 13 ∨ offsetsNonzero keyOffsets) ∧
        ¬bc.db.hasKeyImage kImage ∧
        (bc.getCurrentHardForkVersion < 13 ∨
          (env.isInMainSubgroup kImage ∧ kImage ≠ env.identity)) ∧
        checkTxInput env bc amount keyOffsets kImage txPrefixHash = some (ring, height) ∧
        acc' = (max acc.1 height, acc.2 ++ [ring]) := by
  cases txin with
  | toKey amount keyOffsets kImage =>
    simp only [checkInputsStep, bind_eq_ok, exists_unit, require_eq_ok, TxIn.toKey.injEq]
    constructor
    · rintro ⟨hne, hnz, hspent, hsub, h⟩
      split at h
      · cases h
      · rename_i ring height hin
        exact ⟨_, _, _, ring, height, ⟨rfl, rfl, rfl⟩, hne, hnz, hspent, hsub, hin,
          (pure_eq_ok.mp h).symm⟩
    · rintro ⟨_, _, _, ring, height, ⟨rfl, rfl, rfl⟩, hne, hnz, hspent, hsub, hin, rfl⟩
      exact ⟨hne, hnz, hspent, hsub, by rw [hin]; rfl⟩
  | _ => simp [checkInputsStep]

/-- The tests of `check_tx_inputs` that read the transaction and the fork version only. -/
structure InputsShape (v : ℕ) (tx : Transaction) : Prop where
  ringSizes_ne_nil : tx.ringSizes ≠ []
  ringSizes_const : tx.ringSizes.min? = tx.ringSizes.max?
  ringSize_valid : isValidRingSize v (tx.ringSizes.min?.getD 0)
  version_le : tx.version ≤ transactionVersionMax
  sorted : tx.keyImages.Pairwise (· > ·)
  multiOutput : ¬(tx.rctSignatures.type.isRctBulletproof ∧ v < bulletproofSimpleForkHeight ∧
    ∃ proof ∈ tx.rctSignatures.bulletproofs, 1 < proof.V.length)

/-- The checks that the inputs of a transaction pass. -/
theorem checkTxInputs_ok_iff (hpruned : tx.pruned = false) :
    checkTxInputs env bc tx = .ok m ↔
      InputsShape bc.getCurrentHardForkVersion tx ∧
      ∃ pubkeys,
        tx.vin.foldlM (checkInputsStep env bc (env.txPrefixHash tx)) (0, []) = .ok (m, pubkeys) ∧
        (bc.getCurrentHardForkVersion < 13 ∨ m + 10 ≤ bc.db.height) ∧
        verInputProofsRings env tx pubkeys := by
  simp only [checkTxInputs, hpruned, Bool.false_eq_true, if_false, bind_eq_ok, exists_unit,
    require_eq_ok, pure_eq_ok]
  constructor
  · rintro ⟨h1, h2, h3, h4, h5, ⟨m', pubkeys⟩, hfold, hage, hver, hmulti, rfl⟩
    exact ⟨⟨h1, h2, h3, h4, h5, hmulti⟩, pubkeys, hfold, hage, hver⟩
  · rintro ⟨⟨h1, h2, h3, h4, h5, hmulti⟩, pubkeys, hfold, hage, hver⟩
    exact ⟨h1, h2, h3, h4, h5, (m, pubkeys), hfold, hage, hver, hmulti, rfl⟩

/-- Every input of an accepted transaction is a `txin_to_key` that passed `check_tx_input`, with
the height of its last ring member at most the value returned. -/
theorem checkTxInputs_input (hpruned : tx.pruned = false) (h : checkTxInputs env bc tx = .ok m)
    (hin : txin ∈ tx.vin) :
    ∃ amount keyOffsets kImage ring height, txin = .toKey amount keyOffsets kImage ∧
      keyOffsets ≠ [] ∧
      checkTxInput env bc amount keyOffsets kImage (env.txPrefixHash tx) = some (ring, height) ∧
      height ≤ m := by
  obtain ⟨-, pubkeys, hfold, -⟩ := (checkTxInputs_ok_iff hpruned).mp h
  obtain ⟨-, hmem⟩ := foldlM_ok_mem (R := fun s t => s.1 ≤ t.1) (fun _ => Nat.le_refl _)
    (fun h₁ h₂ => Nat.le_trans h₁ h₂) (fun s a s' hs => by
      obtain ⟨_, _, _, _, _, -, -, -, -, -, -, rfl⟩ := checkInputsStep_ok_iff.mp hs
      exact Nat.le_max_left _ _) _ _ _ hfold
  obtain ⟨acc, acc', hstep, hle⟩ := hmem txin hin
  obtain ⟨amount, keyOffsets, kImage, ring, height, rfl, hne, -, -, -, hring, rfl⟩ :=
    checkInputsStep_ok_iff.mp hstep
  exact ⟨amount, keyOffsets, kImage, ring, height, rfl, hne, hring,
    Nat.le_trans (Nat.le_max_right _ _) hle⟩

end Nerva
