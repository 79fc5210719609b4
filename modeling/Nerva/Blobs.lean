import Nerva.Serialization

/-!
# Block and transaction blobs

The serializers of `cryptonote_basic.h` and `rctTypes.h`: each `do_serialize` describes the reader
and the writer at once, and so does a codec here. Ring signatures come without size prefixes, in a
layout that depends on their type and on the numbers of inputs, outputs and ring members.
-/

namespace Nerva.Archive

open Codec

abbrev Key := Bytes 32

def key : Codec UInt8 Key := blob 32

structure TxOutToScript where
  keys : List Key
  script : Blob
  deriving DecidableEq

def txOutToScript : Codec UInt8 TxOutToScript :=
  ((container key).seq fun _ => container uint8).map
    (fun (keys, script) => ⟨keys, script⟩) fun o => (o.keys, o.script)

inductive TxOutTarget
  | toScript (script : TxOutToScript)
  | toScripthash (hash : Key)
  | toKey (key : Key)
  deriving DecidableEq

namespace TxOutTarget

def tag : TxOutTarget → UInt8
  | toScript _ => 0x0
  | toScripthash _ => 0x1
  | toKey _ => 0x2

def script? : TxOutTarget → Option TxOutToScript
  | toScript script => some script
  | _ => none

def scripthash? : TxOutTarget → Option Key
  | toScripthash hash => some hash
  | _ => none

def key? : TxOutTarget → Option Key
  | toKey key => some key
  | _ => none

end TxOutTarget

def txOutTarget : Codec UInt8 TxOutTarget :=
  variant
    [alternative 0x0 txOutToScript .toScript TxOutTarget.script?,
      alternative 0x1 key .toScripthash TxOutTarget.scripthash?,
      alternative 0x2 key .toKey TxOutTarget.key?]
    TxOutTarget.tag

structure TxOut where
  amount : UInt64
  target : TxOutTarget
  deriving DecidableEq

def txOut : Codec UInt8 TxOut :=
  (varint64.seq fun _ => txOutTarget).map
    (fun (amount, target) => ⟨amount, target⟩) fun o => (o.amount, o.target)

structure TxInToScript where
  prev : Key
  prevout : UInt64
  sigset : Blob
  deriving DecidableEq

def txInToScript : Codec UInt8 TxInToScript :=
  (key.seq fun _ => varint64.seq fun _ => container uint8).map
    (fun (prev, prevout, sigset) => ⟨prev, prevout, sigset⟩) fun i => (i.prev, i.prevout, i.sigset)

structure TxInToScripthash where
  prev : Key
  prevout : UInt64
  script : TxOutToScript
  sigset : Blob
  deriving DecidableEq

def txInToScripthash : Codec UInt8 TxInToScripthash :=
  (key.seq fun _ => varint64.seq fun _ => txOutToScript.seq fun _ => container uint8).map
    (fun (prev, prevout, script, sigset) => ⟨prev, prevout, script, sigset⟩)
    fun i => (i.prev, i.prevout, i.script, i.sigset)

structure TxInToKey where
  amount : UInt64
  keyOffsets : List UInt64
  kImage : Key
  deriving DecidableEq

/-- The elements of a container of `uint64_t` are varints. -/
def txInToKey : Codec UInt8 TxInToKey :=
  (varint64.seq fun _ => (container varint64).seq fun _ => key).map
    (fun (amount, keyOffsets, kImage) => ⟨amount, keyOffsets, kImage⟩)
    fun i => (i.amount, i.keyOffsets, i.kImage)

inductive TxIn
  | gen (height : UInt64)
  | toScript (i : TxInToScript)
  | toScripthash (i : TxInToScripthash)
  | toKey (i : TxInToKey)
  deriving DecidableEq

namespace TxIn

def tag : TxIn → UInt8
  | gen _ => 0xff
  | toScript _ => 0x0
  | toScripthash _ => 0x1
  | toKey _ => 0x2

def gen? : TxIn → Option UInt64
  | gen height => some height
  | _ => none

def script? : TxIn → Option TxInToScript
  | toScript i => some i
  | _ => none

def scripthash? : TxIn → Option TxInToScripthash
  | toScripthash i => some i
  | _ => none

def key? : TxIn → Option TxInToKey
  | toKey i => some i
  | _ => none

end TxIn

def txIn : Codec UInt8 TxIn :=
  variant
    [alternative 0xff varint64 .gen TxIn.gen?,
      alternative 0x0 txInToScript .toScript TxIn.script?,
      alternative 0x1 txInToScripthash .toScripthash TxIn.scripthash?,
      alternative 0x2 txInToKey .toKey TxIn.key?]
    TxIn.tag

structure TransactionPrefix where
  version : UInt64
  unlockTime : UInt64
  vin : List TxIn
  vout : List TxOut
  extra : Blob
  deriving DecidableEq

def transactionPrefix : Codec UInt8 TransactionPrefix :=
  ((varint64.check fun version =>
      ¬(version = 0 ∨ transactionVersionMax < version.toNat)).seq fun _ =>
    varint64.seq fun _ => (container txIn).seq fun _ => (container txOut).seq fun _ =>
    container uint8).map
    (fun (version, unlockTime, vin, vout, extra) => ⟨version, unlockTime, vin, vout, extra⟩)
    fun tx => (tx.version, tx.unlockTime, tx.vin, tx.vout, tx.extra)

inductive RctType
  | null
  | full
  | simple
  | bulletproof1Full
  | bulletproof1Simple
  | bulletproof2
  | clsag
  | bulletproofPlus
  deriving DecidableEq

namespace RctType

def toByte : RctType → UInt8
  | null => 0
  | full => 1
  | simple => 2
  | bulletproof1Full => 3
  | bulletproof1Simple => 4
  | bulletproof2 => 5
  | clsag => 6
  | bulletproofPlus => 7

def ofByte (type : UInt8) : Option RctType :=
  [null, full, simple, bulletproof1Full, bulletproof1Simple, bulletproof2, clsag,
    bulletproofPlus].find? (·.toByte == type)

end RctType

def rctType : Codec UInt8 RctType := uint8.emap RctType.ofByte fun type => some type.toByte

structure CtKey where
  dest : Key
  mask : Key
  deriving DecidableEq

def outPkMask : Codec UInt8 CtKey := key.map (fun mask => ⟨default, mask⟩) CtKey.mask

structure EcdhTuple where
  mask : Key
  amount : Key
  deriving DecidableEq

/-- From the second bulletproof version on only eight bytes of the amount are kept. -/
def ecdhTuple (type : RctType) : Codec UInt8 EcdhTuple :=
  if type = .bulletproof2 ∨ type = .clsag ∨ type = .bulletproofPlus then
    (blob 8).map (fun amount => ⟨default, amount.1 ++ List.replicate 24 0, by simp [amount.2]⟩)
      fun e => ⟨e.amount.1.take 8, by simp [e.amount.2]⟩
  else
    (key.seq fun _ => key).map (fun (mask, amount) => ⟨mask, amount⟩) fun e => (e.mask, e.amount)

structure RctSigBase where
  type : RctType := .null
  txnFee : UInt64 := 0
  pseudoOuts : List Key := []
  ecdhInfo : List EcdhTuple := []
  outPk : List CtKey := []
  deriving DecidableEq

def rctSigBaseFields (inputs outputs : ℕ) (type : RctType) :
    Codec UInt8 (UInt64 × List Key × List EcdhTuple × List CtKey) :=
  if type = .null then skip (0, [], [], [])
  else
    varint64.seq fun _ =>
    (if type = .simple then key.array inputs else skip []).seq fun _ =>
    ((ecdhTuple type).array outputs).seq fun _ =>
    outPkMask.array outputs

def rctSigBase (inputs outputs : ℕ) : Codec UInt8 RctSigBase :=
  (rctType.seq (rctSigBaseFields inputs outputs)).map
    (fun (type, txnFee, pseudoOuts, ecdhInfo, outPk) => ⟨type, txnFee, pseudoOuts, ecdhInfo, outPk⟩)
    fun r => (r.type, r.txnFee, r.pseudoOuts, r.ecdhInfo, r.outPk)

/-- `rangeSig`: the blobs of a `boroSig` (two `key64` and a key) and of a `key64`. -/
structure RangeSig where
  asig : Bytes 4128
  ci : Bytes 2048
  deriving DecidableEq

def rangeSig : Codec UInt8 RangeSig :=
  ((blob 4128).seq fun _ => blob 2048).map (fun (asig, ci) => ⟨asig, ci⟩) fun r => (r.asig, r.ci)

/-- `Bulletproof`; the commitments `V` are not in its blob. -/
structure Bulletproof where
  V : List Key
  A : Key
  S : Key
  T1 : Key
  T2 : Key
  taux : Key
  mu : Key
  L : List Key
  R : List Key
  a : Key
  b : Key
  t : Key
  deriving DecidableEq

def bulletproof : Codec UInt8 Bulletproof :=
  ((key.seq fun _ => key.seq fun _ => key.seq fun _ => key.seq fun _ => key.seq fun _ =>
    key.seq fun _ => (container key).seq fun _ => (container key).seq fun _ => key.seq fun _ =>
    key.seq fun _ => key).map
    (fun (A, S, T1, T2, taux, mu, L, R, a, b, t) => ⟨[], A, S, T1, T2, taux, mu, L, R, a, b, t⟩)
    fun p => (p.A, p.S, p.T1, p.T2, p.taux, p.mu, p.L, p.R, p.a, p.b, p.t)).check
    fun p => ¬(p.L.isEmpty ∨ p.L.length ≠ p.R.length)

structure BulletproofPlus where
  V : List Key
  A : Key
  A1 : Key
  B : Key
  r1 : Key
  s1 : Key
  d1 : Key
  L : List Key
  R : List Key
  deriving DecidableEq

def bulletproofPlus : Codec UInt8 BulletproofPlus :=
  ((key.seq fun _ => key.seq fun _ => key.seq fun _ => key.seq fun _ => key.seq fun _ =>
    key.seq fun _ => (container key).seq fun _ => container key).map
    (fun (A, A1, B, r1, s1, d1, L, R) => ⟨[], A, A1, B, r1, s1, d1, L, R⟩)
    fun p => (p.A, p.A1, p.B, p.r1, p.s1, p.d1, p.L, p.R)).check
    fun p => ¬(p.L.isEmpty ∨ p.L.length ≠ p.R.length)

/-- `n_bulletproof_max_amounts` of one proof with `L` and `R` of these sizes. -/
def proofMaxAmounts (l r : ℕ) : ℕ := if 6 ≤ l ∧ l = r ∧ l ≤ 6 + 4 then 1 <<< (l - 6) else 0

def proofsMaxAmounts (n : ℕ) : List (ℕ × ℕ) → ℕ
  | [] => n
  | (l, r) :: proofs =>
    let n2 := proofMaxAmounts l r
    if ¬n2 < UInt32.size - 1 - n then 0
    else if n2 = 0 then 0
    else proofsMaxAmounts (n + n2) proofs

def nBulletproofMaxAmounts (proofs : List Bulletproof) : ℕ :=
  proofsMaxAmounts 0 (proofs.map fun p => (p.L.length, p.R.length))

def nBulletproofPlusMaxAmounts (proofs : List BulletproofPlus) : ℕ :=
  proofsMaxAmounts 0 (proofs.map fun p => (p.L.length, p.R.length))

def countedProofs {α : Type} (proof : Codec UInt8 α) (outputs : ℕ) : Codec UInt8 (List α) :=
  (((varint 32).check fun nbp => nbp.toNat ≤ outputs).seq fun nbp => proof.array nbp.toNat).map
    Prod.snd fun v =>
      let nbp := BitVec.ofNat 32 v.length
      (nbp, v.take nbp.toNat)

structure RangeProofs where
  rangeSigs : List RangeSig := []
  bulletproofs : List Bulletproof := []
  bulletproofsPlus : List BulletproofPlus := []
  deriving DecidableEq

def rangeProofs (type : RctType) (outputs : ℕ) : Codec UInt8 RangeProofs :=
  if type = .bulletproofPlus then
    ((countedProofs bulletproofPlus outputs).check fun v =>
      ¬nBulletproofPlusMaxAmounts v < outputs).map
      (fun v => { bulletproofsPlus := v }) RangeProofs.bulletproofsPlus
  else if type = .bulletproof2 ∨ type = .clsag then
    ((countedProofs bulletproof outputs).check fun v => ¬nBulletproofMaxAmounts v < outputs).map
      (fun v => { bulletproofs := v }) RangeProofs.bulletproofs
  else if type = .bulletproof1Full ∨ type = .bulletproof1Simple then
    (bulletproof.array outputs).map (fun v => { bulletproofs := v }) RangeProofs.bulletproofs
  else (rangeSig.array outputs).map (fun v => { rangeSigs := v }) RangeProofs.rangeSigs

structure Clsag where
  s : List Key
  c1 : Key
  D : Key
  deriving DecidableEq

def clsag (mixin : ℕ) : Codec UInt8 Clsag :=
  ((key.array (mixin + 1)).seq fun _ => key.seq fun _ => key).map
    (fun (s, c1, D) => ⟨s, c1, D⟩) fun c => (c.s, c.c1, c.D)

structure MgSig where
  ss : List (List Key)
  cc : Key
  deriving DecidableEq

def mgSig (mixin ss2Elements : ℕ) : Codec UInt8 MgSig :=
  (((key.array ss2Elements).array (mixin + 1)).seq fun _ => key).map
    (fun (ss, cc) => ⟨ss, cc⟩) fun m => (m.ss, m.cc)

structure RingSigs where
  mgs : List MgSig := []
  clsags : List Clsag := []
  pseudoOuts : List Key := []
  deriving DecidableEq

def RctType.mgForEach (type : RctType) : Bool :=
  type = .simple ∨ type = .bulletproof1Simple ∨ type = .bulletproof2

def ringSigs (type : RctType) (inputs mixin : ℕ) : Codec UInt8 RingSigs :=
  if type = .clsag ∨ type = .bulletproofPlus then
    (((clsag mixin).array inputs).seq fun _ => key.array inputs).map
      (fun (clsags, pseudoOuts) => { clsags, pseudoOuts }) fun r => (r.clsags, r.pseudoOuts)
  else
    (((mgSig mixin ((if type.mgForEach then 1 else inputs) + 1)).array
      (if type.mgForEach then inputs else 1)).seq fun _ =>
      if type = .bulletproof1Simple ∨ type = .bulletproof2 then key.array inputs else skip []).map
      (fun (mgs, pseudoOuts) => { mgs, pseudoOuts }) fun r => (r.mgs, r.pseudoOuts)

structure RctSigPrunable extends RangeProofs, RingSigs
  deriving DecidableEq

def rctSigPrunable (type : RctType) (inputs outputs mixin : ℕ) : Codec UInt8 RctSigPrunable :=
  if 0xffffffff ≤ inputs ∨ 0xffffffff ≤ outputs ∨ 0xffffffff ≤ mixin then fail
  else if type = .null then skip {}
  else
    ((rangeProofs type outputs).seq fun _ => ringSigs type inputs mixin).map
      (fun (proofs, sigs) => { toRangeProofs := proofs, toRingSigs := sigs })
      fun p => (p.toRangeProofs, p.toRingSigs)

structure RctSig extends RctSigBase where
  p : RctSigPrunable := {}
  deriving DecidableEq

/-- The size of the first input's ring less one, as a `size_t`, and 0 for an input without ring. -/
def mixin (vin : List TxIn) : ℕ :=
  match vin.head? with
  | some (.toKey i) => (i.keyOffsets.length + (UInt64.size - 1)) % UInt64.size
  | _ => 0

def rctSignatures (pruned : Bool) (tx : TransactionPrefix) : Codec UInt8 RctSig :=
  if tx.vin.isEmpty then skip {}
  else
    ((rctSigBase tx.vin.length tx.vout.length).seq fun base =>
      if pruned ∨ base.type = .null then skip {}
      else rctSigPrunable base.type tx.vin.length tx.vout.length (mixin tx.vin)).map
      (fun (base, p) => { toRctSigBase := base, p }) fun r => (r.toRctSigBase, r.p)

structure Transaction extends TransactionPrefix where
  rctSignatures : RctSig
  pruned : Bool := false
  deriving DecidableEq

def transactionFields (pruned : Bool) : Codec UInt8 Transaction :=
  (transactionPrefix.seq (rctSignatures pruned)).map
    (fun (tx, rct) => { toTransactionPrefix := tx, rctSignatures := rct })
    fun tx => (tx.toTransactionPrefix, tx.rctSignatures)

/-- A transaction is read into a new object, which is not pruned. -/
def transaction : Codec UInt8 Transaction where
  read := (transactionFields false).read
  write tx := (transactionFields tx.pruned).write tx

structure BlockHeader where
  majorVersion : UInt8
  minorVersion : UInt8
  timestamp : UInt64
  prevId : Key
  nonce : UInt32
  deriving DecidableEq

def blockHeader : Codec UInt8 BlockHeader :=
  (varint8.seq fun _ => varint8.seq fun _ => varint64.seq fun _ => key.seq fun _ => uint32).map
    (fun (majorVersion, minorVersion, timestamp, prevId, nonce) =>
      ⟨majorVersion, minorVersion, timestamp, prevId, nonce⟩)
    fun b => (b.majorVersion, b.minorVersion, b.timestamp, b.prevId, b.nonce)

structure Block extends BlockHeader where
  minerTx : Transaction
  txHashes : List Key
  deriving DecidableEq

def cryptonoteMaxTxPerBlock : ℕ := 0x10000000

def block : Codec UInt8 Block :=
  (blockHeader.seq fun _ => transaction.seq fun _ =>
    (container key).check fun txHashes => ¬cryptonoteMaxTxPerBlock < txHashes.length).map
    (fun (header, minerTx, txHashes) => { toBlockHeader := header, minerTx, txHashes })
    fun b => (b.toBlockHeader, b.minerTx, b.txHashes)

def parseAndValidateBlockFromBlob (blob : Blob) : Option Block := block.parse true blob

def blockToBlob (b : Block) : Option Blob := block.write b

def isCoinbase (tx : Transaction) : Bool :=
  match tx.vin with
  | [.gen _] => true
  | _ => false

def fillDests : List TxOut → List CtKey → Option (List CtKey)
  | o :: vout, pk :: outPk => do
    let dest ← o.target.key?
    let outPk ← fillDests vout outPk
    return { pk with dest } :: outPk
  | _, outPk => some outPk

def fillProofs : List Bulletproof → List CtKey → Option (List Bulletproof)
  | bp :: bps, pk :: outPk =>
    if bp.L.length ≠ 6 then none
    else (fillProofs bps outPk).map ({ bp with V := [pk.mask] } :: ·)
  | bps, _ => some bps

section Expand

variable (scalarmultKey : Key → Key → Key) (invEight : Key)

/-- The part of `expand_transaction_1` that fills in the commitments of the range proofs. -/
def fillCommitments (tx : Transaction) (outPk : List CtKey) : Option RctSigPrunable :=
  let p := tx.rctSignatures.p
  let type := tx.rctSignatures.type
  let V := outPk.map fun pk => scalarmultKey pk.mask invEight
  if type = .bulletproof1Simple ∨ type = .bulletproof1Full then
    if p.bulletproofs.length ≠ tx.vout.length then none
    else (fillProofs p.bulletproofs outPk).map fun v => { p with bulletproofs := v }
  else if type = .bulletproof2 ∨ type = .clsag then
    match p.bulletproofs with
    | [bp] =>
      if bp.L.length < 6 then none
      else if 1 <<< (bp.L.length - 6) < tx.vout.length then none
      else some { p with bulletproofs := [{ bp with V }] }
    | _ => none
  else if type = .bulletproofPlus then
    match p.bulletproofsPlus with
    | [bp] =>
      if bp.L.length < 6 then none
      else if proofMaxAmounts bp.L.length bp.R.length < tx.vout.length then none
      else some { p with bulletproofsPlus := [{ bp with V }] }
    | _ => none
  else some p

def expandTransaction1 (tx : Transaction) : Option Transaction :=
  if isCoinbase tx then some tx
  else if tx.rctSignatures.outPk.length ≠ tx.vout.length then none
  else do
    let outPk ← fillDests tx.vout tx.rctSignatures.outPk
    let p ← fillCommitments scalarmultKey invEight tx outPk
    return { tx with rctSignatures := { tx.rctSignatures with outPk, p } }

def parseAndValidateTxFromBlob (blob : Blob) : Option Transaction :=
  (transaction.parse true blob).bind (expandTransaction1 scalarmultKey invEight)

end Expand

def txToBlob (tx : Transaction) : Option Blob := transaction.write tx

end Nerva.Archive
