import Nerva.TxChecks
import Mathlib.Algebra.Ring.Nat
import Mathlib.Data.List.DropRight

/-!
# The wallet

The part of `wallet2` that keeps the outputs the wallet has received: `m_transfers`, the positions
by key image and by output key, the subaddress table, the chain of block hashes and the payments.
A call that throws leaves the wallet as it is at that point, so an exception carries it.
-/

namespace Nerva

open Checks

structure SubaddressIndex where
  major : ℕ
  minor : ℕ
  deriving DecidableEq, Repr

abbrev Derivation := ℕ

inductive TxExtraField
  | pubKey (key : PublicKey)
  | additionalPubKeys (keys : List PublicKey)
  | other
  deriving DecidableEq, Repr

structure TransactionPrefix where
  version : ℕ
  unlockTime : UInt64
  vin : List TxIn
  vout : List TxOut
  extra : Blob
  deriving DecidableEq, Repr

def Transaction.toTransactionPrefix (tx : Transaction) : TransactionPrefix where
  version := tx.version
  unlockTime := tx.unlockTime
  vin := tx.vin
  vout := tx.vout
  extra := tx.extra

structure Account where
  /-- what `parse_tx_extra` has stored, also where it stops at something it does not know -/
  parseTxExtra : Blob → List TxExtraField
  generateKeyDerivation : PublicKey → Option Derivation
  deriveSubaddressPublicKey : PublicKey → Derivation → ℕ → PublicKey
  subaddressSpendPublicKey : SubaddressIndex → PublicKey
  /-- `generate_key_image_helper_precomp`: the key of `in_ephemeral` and the key image -/
  generateKeyImage : PublicKey → Derivation → ℕ → SubaddressIndex → Option (PublicKey × KeyImage)
  decodeRct : RctSig → Derivation → ℕ → UInt64 × Hash
  checkRingSignature : KeyImage → PublicKey → Hash → Bool
  /-- `rct::scalarmultKey(ki, curveOrder()) == identity()` -/
  isInMainSubgroup : KeyImage → Bool
  getTransactionHash : Transaction → Hash
  getTransactionPrefixHash : TransactionPrefix → Hash
  /-- the payment id in the extra, decrypted with the transaction's public key -/
  getPaymentId : List TxExtraField → PublicKey → Hash

def rctIdentity : ℕ := 2 ^ 248

structure TransferDetails where
  blockHeight : ℕ
  tx : TransactionPrefix
  txid : Hash
  internalOutputIndex : ℕ
  globalOutputIndex : UInt64
  spent : Bool
  frozen : Bool
  spentHeight : ℕ
  keyImage : KeyImage
  mask : Hash
  amount : UInt64
  rct : Bool
  keyImageKnown : Bool
  keyImageRequest : Bool
  pkIndex : ℕ
  subaddrIndex : SubaddressIndex
  keyImagePartial : Bool
  uses : List (ℕ × Hash)
  deriving DecidableEq, Repr

/-- As `m_transfers.resize` makes it. -/
def TransferDetails.blank : TransferDetails where
  blockHeight := 0
  tx := ⟨0, 0, [], [], []⟩
  txid := nullHash
  internalOutputIndex := 0
  globalOutputIndex := 0
  spent := false
  frozen := false
  spentHeight := 0
  keyImage := 0
  mask := 0
  amount := 0
  rct := false
  keyImageKnown := false
  keyImageRequest := false
  pkIndex := 0
  subaddrIndex := ⟨0, 0⟩
  keyImagePartial := false
  uses := []

def TransferDetails.getPublicKey (td : TransferDetails) : Option PublicKey :=
  td.tx.vout[td.internalOutputIndex]?.bind TxOut.key?

def resize {α : Type} (l : List α) (n : ℕ) (a : α) : List α :=
  l.take n ++ List.replicate (n - l.length) a

structure HashChain where
  genesis : Hash
  offset : ℕ
  blockchain : List Hash
  deriving DecidableEq, Repr

namespace HashChain

variable (c : HashChain)

def size : ℕ := c.blockchain.length + c.offset

def pushBack (hash : Hash) : HashChain :=
  { c with
    genesis := if c.offset = 0 ∧ c.blockchain = [] then hash else c.genesis
    blockchain := c.blockchain ++ [hash] }

def isInBounds (idx : ℕ) : Prop := c.offset ≤ idx ∧ idx < c.size

instance (idx : ℕ) : Decidable (c.isInBounds idx) := inferInstanceAs (Decidable (_ ∧ _))

def get (idx : ℕ) : Option Hash := c.blockchain[idx - c.offset]?

def crop (height : ℕ) : HashChain :=
  { c with blockchain := resize c.blockchain (height - c.offset) nullHash }

end HashChain

inductive RefreshType
  | full
  | optimizeCoinbase
  | noCoinbase
  deriving DecidableEq, Repr

structure PaymentDetails where
  paymentId : Hash
  txHash : Hash
  amount : UInt64
  fee : UInt64
  blockHeight : ℕ
  unlockTime : UInt64
  timestamp : UInt64
  coinbase : Bool
  subaddrIndex : SubaddressIndex
  deriving DecidableEq, Repr

structure Wallet where
  watchOnly : Bool
  multisig : Bool
  /-- `m_ask_password` wants the password and is not given the right one -/
  passwordRefused : Bool
  refreshType : RefreshType
  trackUses : Bool
  createtime : UInt64
  refreshFromBlockHeight : ℕ
  subaddresses : PublicKey → Option SubaddressIndex
  subaddressLabels : List (List String)
  subaddressLookaheadMajor : ℕ
  subaddressLookaheadMinor : ℕ
  transfers : List TransferDetails
  keyImages : KeyImage → Option ℕ
  pubKeys : PublicKey → Option ℕ
  coldKeyImages : PublicKey → Option KeyImage
  blockchain : HashChain
  payments : List PaymentDetails
  /-- the `output_tracker_cache` that goes with the wallet while it refreshes -/
  outputTrackerCache : Option (UInt64 × UInt64 → Option ℕ)

inductive WalletError
  /-- `error::wallet_internal_error` -/
  | internal (message : String)
  /-- `CHECK_AND_ASSERT_THROW_MES` -/
  | runtime (message : String)
  | accOutsLookup
  | outOfHashchainBounds
  | passwordNeeded
  | signatureCheckFailed
  | rpc
  | badGet
  /-- an access outside a vector, which the source leaves undefined -/
  | outOfRange
  /-- `exit(1)` -/
  | exit
  deriving DecidableEq, Repr

abbrev Thrown := Wallet × WalletError

def Wallet.after : Except Thrown Wallet → Wallet
  | .ok w => w
  | .error e => e.1

def uint32Max : ℕ := 2 ^ 32 - 1

@[irreducible] def uint64Max : UInt64 := 0xffffffffffffffff

def getSubaddressClampedSum (idx extra : ℕ) : ℕ :=
  if uint32Max - extra < idx then uint32Max else idx + extra

section Subaddresses

variable (acct : Account)

def addSubaddresses (major start stop : ℕ) (table : PublicKey → Option SubaddressIndex) :
    PublicKey → Option SubaddressIndex :=
  (List.range' start (stop - start)).foldl (fun table minor =>
    Function.update table (acct.subaddressSpendPublicKey ⟨major, minor⟩) (some ⟨major, minor⟩))
    table

def Wallet.expandSubaddresses (w : Wallet) (index : SubaddressIndex) : Wallet :=
  let labels := w.subaddressLabels
  match labels[index.major]? with
  | none =>
    let majorEnd := getSubaddressClampedSum index.major w.subaddressLookaheadMajor
    { w with
      subaddresses :=
        (List.range' labels.length (majorEnd - labels.length)).foldl (fun table major =>
          addSubaddresses acct major 0
            (getSubaddressClampedSum (if major = index.major then index.minor else 0)
              w.subaddressLookaheadMinor) table) w.subaddresses
      subaddressLabels := (resize labels (index.major + 1) ["Untitled account"]).modify index.major
        (resize · (index.minor + 1) "") }
  | some account =>
    if account.length ≤ index.minor then
      { w with
        subaddresses := addSubaddresses acct index.major account.length
          (getSubaddressClampedSum index.minor w.subaddressLookaheadMinor) w.subaddresses
        subaddressLabels := labels.modify index.major (resize · (index.minor + 1) "") }
    else w

structure SubaddressReceiveInfo where
  index : SubaddressIndex
  derivation : Derivation
  deriving DecidableEq, Repr

/-- The table is asked for the shared key of the transaction, then for the output's own one. -/
def isOutToAccPrecomp (subaddresses : PublicKey → Option SubaddressIndex) (outKey : PublicKey)
    (derivation : Derivation) (additionalDerivations : List Derivation) (outputIndex : ℕ) :
    Option SubaddressReceiveInfo :=
  match subaddresses (acct.deriveSubaddressPublicKey outKey derivation outputIndex) with
  | some index => some ⟨index, derivation⟩
  | none =>
    match additionalDerivations[outputIndex]? with
    | none => none
    | some additional =>
      (subaddresses (acct.deriveSubaddressPublicKey outKey additional outputIndex)).map
        (⟨·, additional⟩)

end Subaddresses

namespace Wallet

def modifyTransfer (w : Wallet) (idx : ℕ) (f : TransferDetails → TransferDetails) : Wallet :=
  { w with transfers := w.transfers.modify idx f }

def setSpent (w : Wallet) (idx height : ℕ) : Wallet :=
  w.modifyTransfer idx fun td => { td with spent := true, spentHeight := height }

/-- The first two loops of `detach_blockchain`: a spend at or above the height is forgotten and the
output thawed with it, and the uses there are forgotten. -/
def resetTransfer (height : ℕ) (td : TransferDetails) : TransferDetails :=
  let td := if td.spent ∧ height ≤ td.spentHeight then
      { td with spent := false, spentHeight := 0, frozen := false }
    else td
  { td with uses := td.uses.rdropWhile fun use => height ≤ use.1 }

def eraseKeyImage (w : Wallet) (td : TransferDetails) : Except Thrown Wallet := do
  if !td.keyImageKnown || td.keyImagePartial then
    return w
  require (w.keyImages td.keyImage).isSome (w, .internal "key image not found")
  return { w with keyImages := Function.update w.keyImages td.keyImage none }

def erasePubKey (w : Wallet) (td : TransferDetails) : Except Thrown Wallet := do
  let key ← demand td.getPublicKey (w, .badGet)
  require (w.pubKeys key).isSome (w, .internal "public key not found")
  return { w with pubKeys := Function.update w.pubKeys key none }

def detachBlockchain (w : Wallet) (height : ℕ) : Except Thrown Wallet := do
  require (¬(height < w.blockchain.offset ∧ w.blockchain.offset < w.blockchain.size))
    (w, .internal "Daemon claims reorg below last checkpoint")
  let transfers := w.transfers.map (resetTransfer height)
  let w := { w with
    transfers, outputTrackerCache := w.outputTrackerCache.map fun _ _ => none }
  let iStart := transfers.findIdx fun td => height ≤ td.blockHeight
  let detached := transfers.drop iStart
  let w ← detached.foldlM eraseKeyImage w
  let w ← detached.foldlM erasePubKey w
  return { w with
    transfers := transfers.take iStart
    blockchain := w.blockchain.crop height
    payments := w.payments.filter fun p => ¬height ≤ p.blockHeight }

end Wallet

end Nerva
