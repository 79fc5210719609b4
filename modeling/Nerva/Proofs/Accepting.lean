import Nerva.Proofs.TxChecks
import Mathlib.Algebra.Order.BigOperators.Group.List
import Mathlib.Algebra.Order.Ring.Nat

/-!
# States that accept a transaction

A transaction of acceptable shape is accepted in any state whose output table answers its rings
with unlocked outputs and whose chain spends none of its key images. `shelfChain` is such a state.
-/

namespace Nerva

open Checks List

section Found

variable {env : Env} {bc : Blockchain} {amount : UInt64} {f : UInt64 → OutputData} {v2 : Bool}

theorem getOutputKeys_eq_map : ∀ {offsets : List UInt64},
    (∀ i ∈ offsets, bc.db.getOutputKey? env amount v2 i = some (f i)) →
    bc.db.getOutputKeys env amount v2 offsets = offsets.map f
  | [], _ => rfl
  | i :: rest, h => by
    rw [BlockchainDB.getOutputKeys, h i (by simp), map_cons,
      getOutputKeys_eq_map fun j hj => h j (mem_cons_of_mem _ hj)]

theorem visitOutputs_eq_map : ∀ {offsets : List UInt64},
    (∀ i ∈ offsets, isTxSpendtimeUnlocked env bc.db (f i).unlockTime) →
    visitOutputs env bc amount v2 (offsets.map f) offsets = some (offsets.map f)
  | [], _ => rfl
  | i :: rest, h => by
    have hrest := visitOutputs_eq_map fun j hj => h j (mem_cons_of_mem _ hj)
    simp [visitOutputs, h i (by simp), hrest]

/-- An input passes if its outputs are found, unlocked and old enough. -/
theorem checkTxInput_of_found {keyOffsets : List UInt64} {kImage : KeyImage} {h : Hash} {n : ℕ}
    (hscan : bc.scanTable = []) (hne : keyOffsets ≠ [])
    (hf : ∀ i ∈ relativeOutputOffsetsToAbsolute keyOffsets,
      bc.db.getOutputKey? env amount (bulletproofFullForkHeight ≤ bc.getCurrentHardForkVersion) i
        = some (f i))
    (hunlocked : ∀ i ∈ relativeOutputOffsetsToAbsolute keyOffsets,
      isTxSpendtimeUnlocked env bc.db (f i).unlockTime)
    (hlast : ∀ i ∈ (relativeOutputOffsetsToAbsolute keyOffsets).getLast?, (f i).height = n) :
    ∃ ring, checkTxInput env bc amount keyOffsets kImage h = some (ring, n) := by
  have hlen : (relativeOutputOffsetsToAbsolute keyOffsets).length = keyOffsets.length :=
    RunningSums.length_runningSums _
  have hne' : relativeOutputOffsetsToAbsolute keyOffsets ≠ [] := by
    simpa [relativeOutputOffsetsToAbsolute] using hne
  have hscanned : scanOutputkeysForIndexes env bc amount keyOffsets kImage h
      = some ((relativeOutputOffsetsToAbsolute keyOffsets).map f) := by
    simp [scanOutputkeysForIndexes, hne, ringOutputs, hscan, getOutputKeys_eq_map hf,
      visitOutputs_eq_map hunlocked]
  have hlast' := hlast _ (getLast?_eq_getLast_of_ne_nil hne')
  simp [checkTxInput, hscanned, hlen, getLast?_eq_getLast_of_ne_nil hne',
    hlast']

end Found

/-- Every oracle accepts; the identity element is none of the key images of `tx`. -/
def Env.accepting (tx : Transaction) : Env where
  txHash _ := 0
  txPrefixHash _ := 0
  blockHash _ := 0
  txWeight _ := 0
  parseBlock _ := none
  parseTx _ := some tx
  parseTxBase _ := none
  prunedTxHash _ _ := 0
  checkKey _ := true
  isInMainSubgroup _ := true
  identity := tx.keyImages.sum + 1
  inKeyImageDomain _ := true
  zeroCommit _ _ := 0
  verRings _ _ := true
  now := 0

def shelfTx (amount : UInt64) (n : ℕ) : Transaction where
  version := 2
  unlockTime := 0
  vin := []
  vout := replicate n ⟨amount, .toKey 0⟩
  extra := []
  rctSignatures := ⟨.null, 0, [], [], [], []⟩
  pruned := false

def shelfBlock (shelf : List (UInt64 × ℕ)) : BlockInfo where
  bl := ⟨1, 1, 0, 0, 0, shelfTx 0 0, []⟩
  txs := shelf.map fun (amount, n) => shelfTx amount n
  blockWeight := 0
  longTermBlockWeight := 0
  cumulativeDifficulty := 0
  alreadyGeneratedCoins := 0

/-- A chain of twelve blocks at fork version `v`, with outputs in the first and in the last. -/
def shelfChain (v : ℕ) (old young : List (UInt64 × ℕ)) : Blockchain where
  db := { blocks := shelfBlock old :: replicate 10 (shelfBlock []) ++ [shelfBlock young] }
  hardfork :=
    { heights := ⟨[⟨v, 0, 0⟩], by simp, by simp⟩
      currentForkIndex := ⟨0, by simp⟩ }

/-- How many outputs of an amount the shelf has. -/
def shelfCount (amount : UInt64) (shelf : List (UInt64 × ℕ)) : ℕ :=
  ((shelf.filter (·.1 = amount)).map (·.2)).sum

def shelfOutput (height : ℕ) : OutputData := ⟨0, 0, height, 0⟩

/-- The ring of an input is on the shelf, its last member in the old part. -/
def onShelf (old young : List (UInt64 × ℕ)) : TxIn → Bool
  | .toKey a keyOffsets _ =>
    keyOffsets ≠ [] && offsetsNonzero keyOffsets &&
    (relativeOutputOffsetsToAbsolute keyOffsets).all
      (fun i => i.toNat < shelfCount a old + shelfCount a young) &&
    (relativeOutputOffsetsToAbsolute keyOffsets).getLast?.all (fun i => i.toNat < shelfCount a old)
  | _ => false

section Shelf

variable {env : Env} {v : ℕ} {old young : List (UInt64 × ℕ)} {amount : UInt64}

@[simp] theorem shelfChain_version :
    (shelfChain v old young).getCurrentHardForkVersion = v := rfl

@[simp] theorem shelfChain_height : (shelfChain v old young).db.height = 12 := rfl

theorem shelfTx_tableOutputs (height : ℕ) (a : UInt64) (n : ℕ) :
    (shelfTx a n).tableOutputs height (fun i _ => (shelfTx a n).rctSignatures.outPk.getD i 0)
      TxOut.amount = replicate n (a, shelfOutput height) := by
  have hentry : ∀ x ∈ (replicate n (⟨a, .toKey 0⟩ : TxOut)).zipIdx,
      (x.1.key?.map fun key => (x.1.amount, (⟨key, 0, height, [].getD x.2 0⟩ : OutputData))) =
        some (a, shelfOutput height) := by
    intro x hx
    rw [eq_of_mem_replicate (fst_mem_of_mem_zipIdx hx)]
    rfl
  have hmap := filterMap_congr hentry
  rw [filterMap_eq_map', map_const', length_zipIdx, length_replicate] at hmap
  exact hmap

theorem shelfBlock_outputs_filter (height : ℕ) (shelf : List (UInt64 × ℕ)) :
    ((shelfBlock shelf).outputs env height).filter (·.1 = amount) =
      replicate (shelfCount amount shelf) (amount, shelfOutput height) := by
  have houts : (shelfBlock shelf).outputs env height =
      shelf.flatMap fun x => replicate x.2 (x.1, shelfOutput height) := by
    simp only [BlockInfo.outputs, shelfBlock, flatMap_map, shelfTx_tableOutputs]
    rfl
  rw [houts]
  clear houts
  induction shelf with
  | nil => rfl
  | cons x shelf ih =>
    rw [flatMap_cons, filter_append, ih]
    by_cases hx : x.1 = amount
    · simp [shelfCount, hx]
    · simp [shelfCount, hx]

theorem shelfChain_outputsOf : (shelfChain v old young).db.outputsOf env amount =
    replicate (shelfCount amount old) (shelfOutput 0) ++
      replicate (shelfCount amount young) (shelfOutput 11) := by
  have hempty : shelfCount amount [] = 0 := rfl
  simp only [BlockchainDB.outputsOf, shelfChain, replicate, cons_append,
    nil_append, outputsFrom, append_nil, filter_append, shelfBlock_outputs_filter,
    hempty, map_append, map_replicate]

def shelfMember (amount : UInt64) (old : List (UInt64 × ℕ)) (i : UInt64) : OutputData :=
  shelfOutput (if i.toNat < shelfCount amount old then 0 else 11)

theorem shelfChain_getOutputKey? {tx : Transaction} {v2 : Bool} {i : UInt64}
    (hi : i.toNat < shelfCount amount old + shelfCount amount young) :
    (shelfChain v old young).db.getOutputKey? (Env.accepting tx) amount v2 i =
      some (shelfMember amount old i) := by
  rw [BlockchainDB.getOutputKey?, shelfChain_outputsOf, getElem?_append,
    length_replicate]
  by_cases hold : i.toNat < shelfCount amount old
  · rw [if_pos hold, getElem?_replicate_of_lt hold, shelfMember]
    split <;> rfl
  · rw [if_neg hold, getElem?_replicate_of_lt (by omega), shelfMember]
    split <;> rfl

theorem shelfChain_hasKeyImage (k : KeyImage) :
    (shelfChain v old young).db.hasKeyImage k = false := by
  have hblock : ∀ shelf : List (UInt64 × ℕ),
      (shelfBlock shelf).txs.any (fun tx => tx.keyImages.contains k) = false := by
    simp [shelfBlock, shelfTx, Transaction.keyImages]
  simp only [BlockchainDB.hasKeyImage, shelfChain, replicate, cons_append,
    nil_append, any_cons, any_nil, hblock, Bool.or_false]

theorem isTxSpendtimeUnlocked_zero (db : BlockchainDB) : isTxSpendtimeUnlocked env db 0 = true := by
  simp [isTxSpendtimeUnlocked]

theorem onShelf_iff {txin : TxIn} : onShelf old young txin = true ↔
    ∃ a keyOffsets k, txin = .toKey a keyOffsets k ∧ keyOffsets ≠ [] ∧ offsetsNonzero keyOffsets ∧
      (∀ i ∈ relativeOutputOffsetsToAbsolute keyOffsets,
        i.toNat < shelfCount a old + shelfCount a young) ∧
      ∀ i ∈ (relativeOutputOffsetsToAbsolute keyOffsets).getLast?, i.toNat < shelfCount a old := by
  cases txin with
  | toKey a keyOffsets k =>
    simp only [onShelf, Bool.and_eq_true, decide_eq_true_eq, all_eq_true,
      Option.all_eq_true, and_assoc, TxIn.toKey.injEq]
    constructor
    · intro h
      exact ⟨_, _, _, rfl, rfl, rfl, h⟩
    · rintro ⟨_, _, _, rfl, rfl, rfl, h⟩
      exact h
  | _ => simp [onShelf]

/-- On this chain every transaction of the right shape passes. -/
theorem shelfChain_checkTxInputs {tx : Transaction} (hshape : InputsShape v tx)
    (hpruned : tx.pruned = false) (htype : tx.rctSignatures.type ≠ .null)
    (hrings : ∀ txin ∈ tx.vin, onShelf old young txin) :
    checkTxInputs (Env.accepting tx) (shelfChain v old young) tx = .ok 0 := by
  rw [checkTxInputs_ok_iff hpruned, shelfChain_height]
  refine ⟨hshape, ?_⟩
  have hloop : ∃ r, tx.vin.foldlM (checkInputsStep (Env.accepting tx) (shelfChain v old young)
      ((Env.accepting tx).txPrefixHash tx)) (0, []) = .ok r ∧ r.1 = 0 := by
    refine foldlM_ok_of_inv (P := fun acc : ℕ × List (List CtKey) => acc.1 = 0) tx.vin _ rfl
      fun acc hacc txin hin => ?_
    obtain ⟨a, keyOffsets, k, rfl, hne, hnz, hall, hlast⟩ := onShelf_iff.mp (hrings txin hin)
    have hring : ∃ ring, checkTxInput (Env.accepting tx) (shelfChain v old young) a keyOffsets k
        ((Env.accepting tx).txPrefixHash tx) = some (ring, 0) := by
      refine checkTxInput_of_found rfl hne (fun i hi => shelfChain_getOutputKey? (hall i hi))
        (fun i _ => isTxSpendtimeUnlocked_zero _) fun i hi => ?_
      rw [shelfMember, if_pos (hlast i hi)]
      rfl
    obtain ⟨ring, hring⟩ := hring
    have hk : k ≠ (Env.accepting tx).identity := by
      have hmem : k ∈ tx.keyImages := mem_filterMap.mpr ⟨_, hin, rfl⟩
      exact Nat.ne_of_lt (Nat.lt_succ_of_le (le_sum_of_mem hmem))
    exact ⟨_, checkInputsStep_ok_iff.mpr ⟨a, keyOffsets, k, ring, 0, rfl, hne, .inr hnz,
      by simp [shelfChain_hasKeyImage], .inr ⟨rfl, hk⟩, hring, rfl⟩, by simp [hacc]⟩
  obtain ⟨⟨m, pubkeys⟩, hfold, hzero⟩ := hloop
  obtain rfl : m = 0 := hzero
  have hv : ¬2 < tx.version := by
    have := hshape.version_le
    unfold transactionVersionMax at this
    omega
  exact ⟨pubkeys, hfold, .inr (by omega), by
    simp [verInputProofsRings, hv, htype, Env.accepting]⟩

end Shelf

end Nerva
