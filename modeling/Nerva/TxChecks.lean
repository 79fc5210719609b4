import Mathlib.Data.List.Sort
import Nerva.State
import Nerva.Lib.Checks
import Nerva.Lib.RunningSums

/-!
# The checks a transaction passes

The four functions between a received blob and an accepted transaction: `core`'s
`handle_incoming_tx_pre` and `check_tx_semantic`, and `Blockchain`'s `check_tx_outputs` and
`check_tx_inputs`. A rejection carries the flag raised in the verification context, if any.
-/

namespace Nerva

open Checks

/-- The outcome of a check: a value, or a rejection with the flag it raised. -/
abbrev Verdict (α : Type) := Except (Option TvcFlag) α

variable (env : Env)

/-- `core::handle_incoming_tx_pre`; `badSemantics` is the content of `bad_semantics_txes`. -/
def handleIncomingTxPre (badSemantics : List Hash) (entry : TxBlobEntry) :
    Verdict (Transaction × Hash) := do
  require (entry.blob.length ≤ cryptonoteMaxTxSize) (some .tooBig)
  let parsed :=
    if entry.prunableHash = nullHash then
      (env.parseTx entry.blob).map fun tx => (tx, env.txHash tx)
    else
      (env.parseTxBase entry.blob).map fun tx => (tx, env.prunedTxHash tx entry.prunableHash)
  match parsed with
  | none => .error (some .verifivationFailed)
  | some (tx, txHash) =>
    require (txHash ∉ badSemantics) (some .verifivationFailed)
    require (¬(tx.version = 0 ∨ transactionVersionMax < tx.version)) (some .verifivationFailed)
    return (tx, txHash)

def checkInputsTypesSupported (tx : Transaction) : Bool := tx.vin.all TxIn.isToKey

def checkOutsValid (tx : Transaction) : Bool :=
  tx.vout.all fun o => o.key?.any env.checkKey

/-- The accumulation `check_inputs_overflow` and `check_outs_overflow` share. -/
def moneyOverflows : UInt64 → List UInt64 → Bool
  | _, [] => false
  | money, a :: as => if a + money < money then true else moneyOverflows (money + a) as

/-- `check_inputs_overflow`: an input that is not `txin_to_key` fails the check. -/
def checkInputsOverflow (tx : Transaction) : Bool :=
  checkInputsTypesSupported tx && !moneyOverflows 0 (tx.vin.map fun
    | .toKey amount _ _ => amount
    | _ => 0)

def checkOutsOverflow (tx : Transaction) : Bool := !moneyOverflows 0 (tx.vout.map (·.amount))

def checkMoneyOverflow (tx : Transaction) : Bool := checkInputsOverflow tx && checkOutsOverflow tx

def checkTxInputsKeyimagesDiff (tx : Transaction) : Bool :=
  checkInputsTypesSupported tx && decide tx.keyImages.Nodup

def offsetsNonzero (keyOffsets : List UInt64) : Bool := keyOffsets.tail.all (· ≠ 0)

variable (bc : Blockchain)

def checkTxInputsRingMembersDiff (tx : Transaction) : Bool :=
  bc.getCurrentHardForkVersion < 1 || tx.vin.all fun
    | .toKey _ keyOffsets _ => offsetsNonzero keyOffsets
    | _ => false

def checkTxInputsKeyimagesDomain (tx : Transaction) : Bool :=
  tx.vin.all fun
    | .toKey _ _ kImage => env.inKeyImageDomain kImage
    | _ => false

/-- `core::check_tx_semantic`. The weight bound is a `uint64_t` subtraction. -/
def checkTxSemantic (tx : Transaction) (keepedByBlock : Bool) : Bool :=
  tx.vin ≠ [] &&
  checkInputsTypesSupported tx &&
  checkOutsValid env tx &&
  tx.rctSignatures.outPk.length = tx.vout.length &&
  checkMoneyOverflow tx &&
  (keepedByBlock || UInt64.ofNat (env.txWeight tx) <
    UInt64.ofNat bc.currentBlockCumulWeightLimit - UInt64.ofNat coinbaseBlobReservedSize) &&
  checkTxInputsKeyimagesDiff tx &&
  checkTxInputsRingMembersDiff bc tx &&
  checkTxInputsKeyimagesDomain env tx

def checkTxRctType (tx : Transaction) : Verdict Unit := do
  let hfVersion := bc.getCurrentHardForkVersion
  let rct := tx.rctSignatures
  require (¬(hfVersion < bulletproofSimpleForkHeight ∧
    (rct.type.isRctBulletproof ∨ rct.bulletproofs ≠ []))) (some .invalidOutput)
  require (¬(bulletproofFullForkHeight ≤ hfVersion ∧ rct.type.isRctBorromean))
    (some .invalidOutput)
  require (¬(hfVersion < bulletproofFullForkHeight ∧ rct.type = .bulletproof2))
    (some .invalidOutput)
  require (¬(hfVersion < hfVersionClsag ∧ 2 ≤ tx.version ∧
    (rct.type = .clsag ∨ rct.type = .bulletproofPlus ∨ rct.bulletproofsPlus ≠ [])))
    (some .invalidOutput)
  require (¬(hfVersionBulletproofPlus ≤ hfVersion ∧ 2 ≤ tx.version ∧
    (rct.type ≠ .bulletproofPlus ∨ rct.bulletproofs ≠ []))) (some .invalidOutput)

def checkTxOutputsExceptSubgroup (tx : Transaction) :
    Verdict Unit := do
  let hfVersion := bc.getCurrentHardForkVersion
  require (¬(hfVersionMin2Outputs ≤ hfVersion ∧ 2 ≤ tx.version ∧ tx.vout.length < 2))
    (some .tooFewOutputs)
  require (∀ o ∈ tx.vout, o.amount = 0) (some .invalidOutput)
  require (tx.vout.all fun o => o.key?.all env.checkKey) (some .invalidOutput)
  checkTxRctType bc tx

def checkTxOutputs (tx : Transaction) : Verdict Unit := do
  checkTxOutputsExceptSubgroup env bc tx
  let hfVersion := bc.getCurrentHardForkVersion
  require (hfVersion < hfVersionTxKeyValidation ∨ tx.vout.all fun o =>
    o.key?.all fun key => env.isInMainSubgroup key && key ≠ env.identity) (some .invalidOutput)

/-- `relative_output_offsets_to_absolute`: running sums in `uint64_t`. -/
def relativeOutputOffsetsToAbsolute (offsets : List UInt64) : List UInt64 :=
  RunningSums.runningSums offsets

/-- `absolute_output_offsets_to_relative`, which sorts the offsets first. -/
def absoluteOutputOffsetsToRelative (offsets : List UInt64) : List UInt64 :=
  RunningSums.differences (offsets.insertionSort (· ≤ ·))

/-- `Blockchain::is_tx_spendtime_unlocked`. An unlock time below the block number limit is a
height; `height - 1 + delta` is the height itself in `uint64_t`. -/
def isTxSpendtimeUnlocked (db : BlockchainDB) (unlockTime : UInt64) : Bool :=
  if unlockTime.toNat < cryptonoteMaxBlockNumber then
    unlockTime ≤ UInt64.ofNat db.height - 1 + UInt64.ofNat lockedTxAllowedDeltaBlocks
  else
    unlockTime ≤ env.now + lockedTxAllowedDeltaSecondsV1

/-- The ring members `scan_outputkeys_for_indexes` has at hand before it visits them: those of the
scan table, completed from the database when there are some but not all, or those of the
database. -/
def ringOutputs (amount : UInt64) (kImage : KeyImage) (txPrefixHash : Hash) (v2 : Bool)
    (absoluteOffsets : List UInt64) : Option (List OutputData) :=
  match (bc.scanTable.lookup txPrefixHash).bind (·.lookup kImage) with
  | none =>
    let outputs := bc.db.getOutputKeys env amount v2 absoluteOffsets
    if absoluteOffsets.length = outputs.length then some outputs else none
  | some outputs =>
    if outputs.length < absoluteOffsets.length ∧ 0 < outputs.length then
      let addOffsets := absoluteOffsets.drop outputs.length
      let addOutputs := bc.db.getOutputKeys env amount v2 addOffsets
      if addOffsets.length = addOutputs.length then some (outputs ++ addOutputs) else none
    else some outputs

/-- The visit of the ring members: each is taken from `outputs`, or from the database past its
end, and `handle_output` checks that it is unlocked. -/
def visitOutputs (env : Env) (bc : Blockchain) (amount : UInt64) (v2 : Bool) :
    List OutputData → List UInt64 → Option (List OutputData)
  | _, [] => some []
  | outputs, i :: rest => do
    let output ← outputs.head? <|> bc.db.getOutputKey? env amount v2 i
    if isTxSpendtimeUnlocked env bc.db output.unlockTime then
      let visited ← visitOutputs env bc amount v2 outputs.tail rest
      return output :: visited
    else none

/-- `Blockchain::scan_outputkeys_for_indexes` with the visitor of `check_tx_input`: the ring
members in order. -/
def scanOutputkeysForIndexes (amount : UInt64) (keyOffsets : List UInt64) (kImage : KeyImage)
    (txPrefixHash : Hash) : Option (List OutputData) :=
  if keyOffsets = [] then none
  else
    let v2 : Bool := bulletproofFullForkHeight ≤ bc.getCurrentHardForkVersion
    let absoluteOffsets := relativeOutputOffsetsToAbsolute keyOffsets
    (ringOutputs env bc amount kImage txPrefixHash v2 absoluteOffsets).bind fun outputs =>
      visitOutputs env bc amount v2 outputs absoluteOffsets

/-- `Blockchain::check_tx_input`: the ring's keys, and the height of its last member. -/
def checkTxInput (amount : UInt64) (keyOffsets : List UInt64) (kImage : KeyImage)
    (txPrefixHash : Hash) : Option (List CtKey × ℕ) := do
  let outputs ← scanOutputkeysForIndexes env bc amount keyOffsets kImage txPrefixHash
  let last ← outputs.getLast?
  if keyOffsets.length = outputs.length then
    return (outputs.map fun o => ⟨o.pubkey, o.commitment⟩, last.height)
  else none

def getRingSize (version : ℕ) : ℕ :=
  if hfVersionRingSize16 ≤ version then defaultRingsizeV14 else defaultRingsize

def isValidRingSize (version ringSize : ℕ) : Bool := ringSize = getRingSize version

/-- The ring sizes of the `txin_to_key` inputs; the other inputs are skipped. -/
def Transaction.ringSizes (tx : Transaction) : List ℕ :=
  tx.vin.filterMap fun
    | .toKey _ keyOffsets _ => some keyOffsets.length
    | _ => none

/-- `ver_input_proofs_rings`: only the signature verification itself is left to `Env`. -/
def verInputProofsRings (tx : Transaction) (pubkeys : List (List CtKey)) : Bool :=
  !(2 < tx.version) && tx.rctSignatures.type ≠ .null && env.verRings tx pubkeys

/-- One turn of the loop over the inputs in `check_tx_inputs`. The accumulator is
`*pmax_used_block_height` and the rings collected so far. -/
def checkInputsStep (txPrefixHash : Hash) (acc : ℕ × List (List CtKey)) (txin : TxIn) :
    Verdict (ℕ × List (List CtKey)) :=
  let hfVersion := bc.getCurrentHardForkVersion
  match txin with
  | .toKey amount keyOffsets kImage => do
    require (keyOffsets ≠ []) none
    require (hfVersion < hfVersionTxKeyValidation ∨ offsetsNonzero keyOffsets)
      (some .verifivationFailed)
    require (¬bc.db.hasKeyImage kImage) (some .doubleSpend)
    require (hfVersion < hfVersionTxKeyValidation ∨
      (env.isInMainSubgroup kImage ∧ kImage ≠ env.identity)) (some .verifivationFailed)
    match checkTxInput env bc amount keyOffsets kImage txPrefixHash with
    | none => .error none
    | some (ring, lastHeight) => return (max acc.1 lastHeight, acc.2 ++ [ring])
  | _ => .error none

/-- `Blockchain::check_tx_inputs`; the value is `*pmax_used_block_height`. -/
def checkTxInputs (tx : Transaction) : Verdict ℕ :=
  if tx.pruned then return 0
  else do
    let hfVersion := bc.getCurrentHardForkVersion
    let ringSizes := tx.ringSizes
    require (ringSizes ≠ []) (some .lowMixin)
    require (ringSizes.min? = ringSizes.max?) (some .lowMixin)
    require (isValidRingSize hfVersion (ringSizes.min?.getD 0)) (some .lowMixin)
    require (tx.version ≤ transactionVersionMax) (some .verifivationFailed)
    require (tx.keyImages.Pairwise (· > ·)) (some .verifivationFailed)
    let (maxUsedBlockHeight, pubkeys) ←
      tx.vin.foldlM (checkInputsStep env bc (env.txPrefixHash tx)) (0, [])
    require (hfVersion < hfVersionEnforceMinAge ∨
      maxUsedBlockHeight + defaultTxSpendableAge ≤ bc.db.height) none
    require (verInputProofsRings env tx pubkeys) none
    require (¬(tx.rctSignatures.type.isRctBulletproof ∧
      hfVersion < bulletproofSimpleForkHeight ∧
      ∃ proof ∈ tx.rctSignatures.bulletproofs, 1 < proof.V.length)) none
    return maxUsedBlockHeight

end Nerva
