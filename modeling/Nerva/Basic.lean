import Mathlib.Data.List.Basic

/-!
# Blocks and transactions

The data of `cryptonote_basic.h` and `rctTypes.h` that consensus code reads, and the constants of
`cryptonote_config.h`. A 32-byte value (hash, key, key image) is the number its bytes spell with
the first byte most significant, so that `memcmp` is the order of `ℕ`. Quantities that the code
lets wrap are `UInt64`; heights, weights and versions are `ℕ`.
-/

namespace Nerva

abbrev Hash := ℕ
abbrev PublicKey := ℕ
abbrev KeyImage := ℕ
abbrev Blob := List UInt8

def nullHash : Hash := 0

def cryptonoteMaxBlockNumber : ℕ := 500000000
def cryptonoteMaxTxSize : ℕ := 1000000000
def lockedTxAllowedDeltaBlocks : ℕ := 1
def lockedTxAllowedDeltaSecondsV1 : UInt64 := 60
def defaultTxSpendableAge : ℕ := 10
def transactionVersionMax : ℕ := 2
def coinbaseBlobReservedSize : ℕ := 600
def defaultRingsize : ℕ := 5
def defaultRingsizeV14 : ℕ := 16

/-! Hard fork versions at which a rule changes. -/

def bulletproofSimpleForkHeight : ℕ := 8
def bulletproofFullForkHeight : ℕ := 11
def hfVersionLongTermBlockWeight : ℕ := 12
def hfVersionMin2Outputs : ℕ := 13
def hfVersionEnforceMinAge : ℕ := 13
def hfVersionTxKeyValidation : ℕ := 13
def hfVersionClsag : ℕ := 14
def hfVersionBulletproofPlus : ℕ := 14
def hfVersionRingSize16 : ℕ := 14

/-- The variants of `txin_v`. The fields of the script variants are read by no consensus rule. -/
inductive TxIn
  | gen (height : ℕ)
  | toScript
  | toScripthash
  | toKey (amount : UInt64) (keyOffsets : List UInt64) (kImage : KeyImage)
  deriving DecidableEq, Repr

inductive TxOutTarget
  | toScript
  | toScripthash
  | toKey (key : PublicKey)
  deriving DecidableEq, Repr

structure TxOut where
  amount : UInt64
  target : TxOutTarget
  deriving DecidableEq, Repr

def TxOut.key? (o : TxOut) : Option PublicKey :=
  match o.target with
  | .toKey key => some key
  | _ => none

/-- The RingCT types in the order of their wire values `0 … 7`. -/
inductive RctType
  | null
  | full
  | simple
  | bulletproof1Full
  | bulletproof1Simple
  | bulletproof2
  | clsag
  | bulletproofPlus
  deriving DecidableEq, Repr

def RctType.isRctBulletproof : RctType → Bool
  | .bulletproof1Full | .bulletproof1Simple | .bulletproof2 | .clsag => true
  | _ => false

def RctType.isRctBorromean : RctType → Bool
  | .full | .simple => true
  | _ => false

/-- A range proof of either kind, by its commitments `V`. -/
structure RangeProof where
  V : List Hash
  deriving DecidableEq, Repr

/-- `rct::rctSig`. `sigData` stands for the parts only signature verification reads. -/
structure RctSig where
  type : RctType
  txnFee : UInt64
  outPk : List Hash
  bulletproofs : List RangeProof
  bulletproofsPlus : List RangeProof
  sigData : Blob
  deriving DecidableEq, Repr

structure Transaction where
  version : ℕ
  unlockTime : UInt64
  vin : List TxIn
  vout : List TxOut
  extra : Blob
  rctSignatures : RctSig
  pruned : Bool
  deriving DecidableEq, Repr

def TxIn.keyImage? : TxIn → Option KeyImage
  | .toKey _ _ k => some k
  | _ => none

def Transaction.keyImages (tx : Transaction) : List KeyImage :=
  tx.vin.filterMap TxIn.keyImage?

def TxIn.isToKey : TxIn → Bool
  | .toKey .. => true
  | _ => false

def Transaction.isCoinbase (tx : Transaction) : Bool :=
  match tx.vin with
  | [.gen _] => true
  | _ => false

structure Block where
  majorVersion : ℕ
  minorVersion : ℕ
  timestamp : UInt64
  prevId : Hash
  nonce : ℕ
  minerTx : Transaction
  txHashes : List Hash
  deriving DecidableEq, Repr

end Nerva
