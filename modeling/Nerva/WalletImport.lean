import Nerva.WalletScan

/-!
# Imports

`import_outputs` takes over the outputs another wallet has exported, `import_key_images` the key
images a wallet with the spend key has made for them, with or without signatures.
-/

namespace Nerva

open Checks

section Import

variable (acct : Account)

variable (w : Wallet)

/-- Whether an output of the transaction is the wallet's with this public key alone. -/
def yieldsOutput (tx : TransactionPrefix) (derivation : Derivation) : Bool :=
  tx.vout.zipIdx.any fun (o, i) =>
    let info := checkAccOutPrecomp acct w.subaddresses o derivation [] i .initial
    !info.error && info.received.isSome

/-- The search of `get_tx_pub_key_from_received_outs` among several public keys. -/
def findTxPubKey (w : Wallet) (tx : TransactionPrefix) :
    List PublicKey → Except WalletError (Option PublicKey)
  | [] => .ok none
  | key :: keys => do
    let derivation ← demand (acct.generateKeyDerivation key)
      (.internal "Failed to generate key derivation")
    if yieldsOutput acct w tx derivation then return some key
    findTxPubKey w tx keys

def getTxPubKeyFromReceivedOuts (td : TransferDetails) : Except WalletError PublicKey :=
  match txPubKeys (acct.parseTxExtra td.tx.extra) with
  | [] => .error (.internal "Public key wasn't found in the transaction extra")
  | [key] => .ok key
  | key :: keys => do return (← findTxPubKey acct w td.tx (key :: keys)).getD key

/-- `generate_key_image_helper`: additional keys without a derivation are passed over. -/
def generateKeyImageHelper (subaddresses : PublicKey → Option SubaddressIndex) (outKey : PublicKey)
    (txPublicKey : PublicKey) (additionalTxPublicKeys : List PublicKey) (realOutputIndex : ℕ) :
    Option (PublicKey × KeyImage) := do
  let received ← isOutToAccPrecomp acct subaddresses outKey (keyDerivation acct txPublicKey)
    (additionalTxPublicKeys.filterMap acct.generateKeyDerivation) realOutputIndex
  acct.generateKeyImage outKey received.derivation realOutputIndex received.index

def alreadyImported (org td : TransferDetails) : Prop :=
  org.keyImageKnown ∧ td.txid = org.txid ∧ td.keyImage = org.keyImage ∧
    td.internalOutputIndex = org.internalOutputIndex ∧
    acct.getTransactionPrefixHash td.tx = acct.getTransactionPrefixHash org.tx

instance (org td : TransferDetails) : Decidable (alreadyImported acct org td) :=
  inferInstanceAs (Decidable (_ ∧ _))

/-- The key of the imported output, and the key of `in_ephemeral` and the key image made for it. -/
def importedKeyImage (td : TransferDetails) :
    Except WalletError (PublicKey × PublicKey × KeyImage) := do
  require (td.tx.vout ≠ []) (.internal "tx with no outputs")
  let txPubKey ← getTxPubKeyFromReceivedOuts acct w td
  let out ← demand td.tx.vout[td.internalOutputIndex]? .outOfRange
  let outKey ← demand out.key? (.internal "Unsupported output type")
  let (pub, ki) ← demand (generateKeyImageHelper acct w.subaddresses outKey txPubKey
    (additionalTxPubKeys (acct.parseTxExtra td.tx.extra)) td.internalOutputIndex)
    (.internal "Failed to generate key image")
  return (outKey, pub, ki)

def importOutput (originalSize : ℕ) (w : Wallet) (entry : TransferDetails × ℕ) :
    Except Thrown Wallet := do
  let (td, idx) := entry
  let org ← demand w.transfers[idx]? (w, .outOfRange)
  if idx < originalSize ∧ alreadyImported acct org td then
    return w.modifyTransfer idx fun _ => td
  let (outKey, pub, keyImage) ← (importedKeyImage acct w td).mapError (w, ·)
  let w := w.expandSubaddresses acct td.subaddrIndex
  require (pub = outKey)
    (w, .internal "key_image generated ephemeral public key not matched with output_key")
  let td := { td with
    keyImage
    keyImageKnown := true
    keyImageRequest := true
    keyImagePartial := false }
  return { w with
    keyImages := Function.update w.keyImages keyImage (some idx)
    pubKeys := Function.update w.pubKeys outKey (some idx)
    transfers := w.transfers.set idx td }

def importOutputs (offset : ℕ) (outputs : List TransferDetails) :
    Except Thrown Wallet := do
  require (offset ≤ w.transfers.length)
    (w, .internal "Imported outputs omit more outputs that we know of")
  let originalSize := w.transfers.length
  let transfers := resize w.transfers (offset + outputs.length) .blank
  let w := { w with
    transfers := transfers.mapIdx fun i td =>
      if i < offset then { td with keyImageRequest := false } else td }
  (outputs.zipIdx offset).foldlM (importOutput acct originalSize) w

def Wallet.setKeyImage (idx : ℕ) (keyImage : KeyImage) : Wallet :=
  { w.modifyTransfer idx fun td => { td with
      keyImage
      keyImageKnown := true
      keyImageRequest := false
      keyImagePartial := false } with
    keyImages := Function.update w.keyImages keyImage (some idx) }

/-- One key image of `import_key_images` without signatures: it is trusted, also where another one
is known. -/
def importKeyImage (selected : Option (ℕ → Bool)) (w : Wallet) (entry : KeyImage × ℕ) :
    Except Thrown Wallet := do
  let (keyImage, idx) := entry
  if selected.any fun selected => !selected idx then
    return w
  let td ← demand w.transfers[idx]? (w, .outOfRange)
  let w := w.setKeyImage idx keyImage
  let key ← demand td.getPublicKey (w, .badGet)
  return { w with pubKeys := Function.update w.pubKeys key (some idx) }

/-- `import_key_images` without signatures, with the transfers it is to be limited to. -/
def importKeyImages (keyImages : List KeyImage) (offset : ℕ) (selected : Option (ℕ → Bool)) :
    Except Thrown Wallet :=
  if w.transfers.length < keyImages.length + offset then .ok w
  else (keyImages.zipIdx offset).foldlM (importKeyImage selected) w

def checkSignedKeyImage (entry : (KeyImage × Hash) × ℕ) : Except WalletError Unit := do
  let ((keyImage, signature), idx) := entry
  let td ← demand w.transfers[idx]? .outOfRange
  let out ← demand td.tx.vout[td.internalOutputIndex]? .outOfRange
  let pkey ← demand out.key? (.internal "Non txout_to_key output found")
  if !td.keyImageKnown || keyImage ≠ td.keyImage then
    require (acct.isInMainSubgroup keyImage) (.internal "Key image out of validity domain")
    require (acct.checkRingSignature keyImage pkey signature) .signatureCheckFailed

/-- What the daemon says of the transfers and the transactions that spend them: the statuses of
`is_key_image_spent`, and the heights and inputs of `gettransactions`, unless one is refused. -/
structure SpentAnswer where
  spentStatus : List Bool
  txes : List (Option (ℕ × List TxIn))

def spendTransfers (height : ℕ) (w : Wallet) (input : TxIn) : Except Thrown Wallet :=
  match input with
  | .toKey amount _ kImage =>
    match w.keyImages kImage with
    | none => .ok w
    | some idx => do
      let td ← demand w.transfers[idx]?
        (w, .internal "Key images cache contains illegal transfer offset")
      require (amount = 0 ∨ amount = td.amount) (w, .internal "Inconsistent amount in tx input")
      return w.setSpent idx height
  | _ => .ok w

/-- `import_key_images` with signatures: all are checked before the first is taken over. Without an
answer of the daemon where one is asked for it throws. -/
def importSignedKeyImages (signedKeyImages : List (KeyImage × Hash)) (offset : ℕ)
    (checkSpent : Bool) (answer : Option SpentAnswer) : Except Thrown Wallet := do
  require (offset ≤ w.transfers.length) (w, .internal "Offset larger than known outputs")
  require (signedKeyImages.length ≤ w.transfers.length - offset)
    (w, .internal "The blockchain is out of date compared to the signed key images")
  let entries := signedKeyImages.zipIdx offset
  (entries.forM (checkSignedKeyImage acct w)).mapError (w, ·)
  let w := entries.foldl (fun w entry => w.setKeyImage entry.2 entry.1.1) w
  if !checkSpent || (signedKeyImages = [] && offset = 0) then
    return w
  let answer ← demand answer (w, .rpc)
  require (answer.spentStatus.length = signedKeyImages.length)
    (w, .internal "daemon returned wrong response for is_key_image_spent")
  let w := (answer.spentStatus.zipIdx offset).foldl (fun w entry =>
    w.modifyTransfer entry.2 fun td => { td with spent := entry.1 }) w
  answer.txes.foldlM (fun w tx => do
    let (height, vin) ← demand tx (w, .rpc)
    vin.foldlM (spendTransfers height) w) w

inductive WalletCall
  | newTransaction (t : NewTransaction)
  | detach (height : ℕ)
  | importOutputs (offset : ℕ) (outputs : List TransferDetails)
  | importKeyImages (keyImages : List KeyImage) (offset : ℕ) (selected : Option (ℕ → Bool))
  | importSignedKeyImages (signedKeyImages : List (KeyImage × Hash)) (offset : ℕ)
      (checkSpent : Bool) (answer : Option SpentAnswer)

def Wallet.call : WalletCall → Wallet
  | .newTransaction t => Wallet.after ((processNewTransaction acct w t).map (·.wallet))
  | .detach height => Wallet.after (w.detachBlockchain height)
  | .importOutputs offset outputs => Wallet.after (importOutputs acct w offset outputs)
  | .importKeyImages keyImages offset selected =>
    Wallet.after (importKeyImages w keyImages offset selected)
  | .importSignedKeyImages signedKeyImages offset checkSpent answer =>
    Wallet.after (importSignedKeyImages acct w signedKeyImages offset checkSpent answer)

end Import

end Nerva
