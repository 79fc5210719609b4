import Nerva.Basic
import Nerva.RollingMedian

/-!
# The node's state

What `Blockchain` and the database behind it hold. The database is the list of its main-chain
blocks with the metadata stored beside each, genesis first; the tables that LMDB keeps next to it
(outputs by amount, spent key images, transaction ids) are functions of that list. Everything
outside the program, from hash functions to the clock, is a field of `Env`.
-/

namespace Nerva

structure CtKey where
  dest : PublicKey
  mask : Hash
  deriving DecidableEq, Repr

/-- What the code takes from libraries, cryptography and the operating system. -/
structure Env where
  txHash : Transaction → Hash
  txPrefixHash : Transaction → Hash
  blockHash : Block → Hash
  txWeight : Transaction → ℕ
  parseBlock : Blob → Option Block
  parseTx : Blob → Option Transaction
  parseTxBase : Blob → Option Transaction
  prunedTxHash : Transaction → Hash → Hash
  checkKey : PublicKey → Bool
  isInMainSubgroup : Hash → Bool
  /-- `rct::identity()`. -/
  identity : Hash
  /-- `rct::scalarmultKey(k, rct::curveOrder()) == rct::identity()`. -/
  inKeyImageDomain : KeyImage → Bool
  /-- `rct::zeroCommit` of an amount; the flag is its `v2` argument. -/
  zeroCommit : UInt64 → Bool → Hash
  /-- The ring signature verification behind `ver_input_proofs_rings`. -/
  verRings : Transaction → List (List CtKey) → Bool
  now : UInt64

/-- A main-chain block as stored: `mdb_block_info`, the block and its transactions in order. -/
structure BlockInfo where
  bl : Block
  txs : List Transaction
  blockWeight : ℕ
  longTermBlockWeight : ℕ
  cumulativeDifficulty : ℕ
  alreadyGeneratedCoins : UInt64
  deriving DecidableEq, Repr

structure AltBlock where
  bl : Block
  height : ℕ
  cumulativeWeight : ℕ
  cumulativeDifficulty : ℕ
  alreadyGeneratedCoins : UInt64
  deriving DecidableEq, Repr

structure BlockchainDB where
  blocks : List BlockInfo
  altBlocks : List (Hash × AltBlock) := []
  /-- The `hf_versions` table, newest entry first. -/
  hfVersions : List (ℕ × ℕ) := []
  deriving DecidableEq, Repr

structure OutputData where
  pubkey : PublicKey
  unlockTime : UInt64
  height : ℕ
  commitment : Hash
  deriving DecidableEq, Repr

namespace BlockchainDB

def height (db : BlockchainDB) : ℕ := db.blocks.length

end BlockchainDB

def Transaction.tableOutputs (tx : Transaction) (height : ℕ) (mask : ℕ → TxOut → Hash)
    (amount : TxOut → UInt64) : List (UInt64 × OutputData) :=
  tx.vout.zipIdx.filterMap fun x =>
    x.1.key?.map fun key => (amount x.1, ⟨key, tx.unlockTime, height, mask x.2 x.1⟩)

/-- `BlockchainDB::add_transaction` on a block's coinbase and then its transactions. Coinbase
outputs are stored as amount zero with the commitment to their real amount. -/
def BlockInfo.outputs (env : Env) (height : ℕ) (b : BlockInfo) : List (UInt64 × OutputData) :=
  b.bl.minerTx.tableOutputs height (fun _ o => env.zeroCommit o.amount false) (fun _ => 0) ++
    b.txs.flatMap fun tx =>
      tx.tableOutputs height (fun i _ => tx.rctSignatures.outPk.getD i 0) TxOut.amount

def outputsFrom (env : Env) : ℕ → List BlockInfo → List (UInt64 × OutputData)
  | _, [] => []
  | height, b :: bs => b.outputs env height ++ outputsFrom env (height + 1) bs

namespace BlockchainDB

/-- The `output_amounts` table at one amount, in order of global index. -/
def outputsOf (env : Env) (db : BlockchainDB) (amount : UInt64) : List OutputData :=
  ((outputsFrom env 0 db.blocks).filter (·.1 = amount)).map (·.2)

/-- `get_output_key(amount, offset, v2)`; `none` is `OUTPUT_DNE`. The commitment of an output with
a plain amount is recomputed, since the table does not store it. -/
def getOutputKey? (env : Env) (db : BlockchainDB) (amount : UInt64) (v2 : Bool)
    (offset : UInt64) : Option OutputData :=
  (db.outputsOf env amount)[offset.toNat]?.map fun o =>
    if amount = 0 then o else { o with commitment := env.zeroCommit amount v2 }

/-- `get_output_key` over a list of offsets with `allow_partial`: it stops at the first missing
one. -/
def getOutputKeys (env : Env) (db : BlockchainDB) (amount : UInt64) (v2 : Bool) :
    List UInt64 → List OutputData
  | [] => []
  | offset :: rest =>
    match db.getOutputKey? env amount v2 offset with
    | none => []
    | some o => o :: getOutputKeys env db amount v2 rest

/-- `get_block_height`; none when `block_exists` says no. -/
def getBlockHeight (env : Env) (db : BlockchainDB) (id : Hash) : Option ℕ :=
  db.blocks.findIdx? fun b => env.blockHash b.bl = id

def getAltBlock (db : BlockchainDB) (id : Hash) : Option AltBlock := db.altBlocks.lookup id

def hasKeyImage (db : BlockchainDB) (k : KeyImage) : Bool :=
  db.blocks.any fun b => b.txs.any fun tx => tx.keyImages.contains k

end BlockchainDB

structure Fork where
  version : ℕ
  height : ℕ
  threshold : ℕ
  deriving DecidableEq, Repr

/-- The fork table after `add_fork` and `init`: never empty, in increasing order of version and
height. -/
structure ForkTable where
  forks : List Fork
  ne_nil : forks ≠ []
  increasing : forks.Pairwise fun a b => a.version < b.version ∧ a.height < b.height

/-- `HardFork`. The counters `last_versions` are the counts of `versions`: every update of the one
goes with an update of the other. -/
structure HardFork where
  heights : ForkTable
  originalVersion : ℕ := 1
  windowSize : ℕ := 10080
  versions : List ℕ := []
  currentForkIndex : Fin heights.forks.length

namespace HardFork

def getCurrentVersion (hf : HardFork) : ℕ := (hf.heights.forks.get hf.currentForkIndex).version

def lastVersions (hf : HardFork) (v : ℕ) : ℕ := hf.versions.count v

end HardFork

structure DifficultyCache where
  timestamps : List UInt64 := []
  difficulties : List ℕ := []
  timestampsAndDifficultiesHeight : ℕ := 0
  timestampsAndDifficultiesTopHash : Hash := nullHash
  difficultyForNextBlockTopHash : Hash := nullHash
  difficultyForNextBlock : UInt64 := 1
  deriving DecidableEq, Repr

def longTermBlockWeightWindowSize : ℕ := 50000

/-- `m_long_term_block_weights_cache_rolling_median` with the height of its newest entry. -/
structure LongTermCache where
  tipHeight : ℕ := 0
  rollingMedian : RollingMedian

def LongTermCache.create (data : ℕ → ℕ) : LongTermCache where
  rollingMedian := .create longTermBlockWeightWindowSize data

structure Blockchain where
  db : BlockchainDB
  hardfork : HardFork
  /-- `m_scan_table`: ring members looked up ahead, by prefix hash and key image. -/
  scanTable : List (Hash × List (KeyImage × List OutputData)) := []
  difficultyCache : DifficultyCache := {}
  /-- `m_fixed_difficulty`; zero when none is configured. -/
  fixedDifficulty : UInt64 := 0
  currentBlockCumulWeightLimit : ℕ := 0
  currentBlockCumulWeightMedian : ℕ := 0
  longTermEffectiveMedianBlockWeight : ℕ := 0
  longTermCache : LongTermCache := .create fun _ => 0
  invalidBlocks : List Hash := []

namespace Blockchain

def getCurrentHardForkVersion (bc : Blockchain) : ℕ := bc.hardfork.getCurrentVersion

def haveBlock (env : Env) (bc : Blockchain) (id : Hash) : Bool :=
  (bc.db.getBlockHeight env id).isSome || (bc.db.getAltBlock id).isSome ||
    bc.invalidBlocks.contains id

end Blockchain

structure TxBlobEntry where
  blob : Blob
  prunableHash : Hash := nullHash
  deriving DecidableEq, Repr

structure BlockCompleteEntry where
  block : Blob
  txs : List TxBlobEntry
  pruned : Bool := false
  blockWeight : ℕ := 0
  deriving DecidableEq, Repr

inductive TvcFlag
  | verifivationFailed
  | lowMixin
  | doubleSpend
  | invalidInput
  | invalidOutput
  | tooFewOutputs
  | tooBig
  | feeTooLow
  | txExtraTooBig
  deriving DecidableEq, Repr

end Nerva
