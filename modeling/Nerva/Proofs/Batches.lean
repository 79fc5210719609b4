import Nerva.Lib.Runs
import Nerva.Proofs.WalletScan

/-!
# Batches

`process_parsed_blocks` looks up the owners of all outputs of a batch in the table the wallet has at
the start, while the blocks before an output may add to that table.
-/

namespace Nerva

open Checks Throwing List

variable {acct : Account} {w w' : Wallet} {tx : Transaction} {b top : ParsedBlock} {startHeight : ℕ}
  {refreshType : RefreshType} {w₀ : Wallet}

/-- The two tables name the same owner for each of the first outputs, whichever public key it is
tried with. -/
def SameOwners (acct : Account) (table table' : PublicKey → Option SubaddressIndex)
    (tx : Transaction) (nVouts : ℕ) : Prop :=
  ∀ o ∈ (tx.vout.take nVouts).zipIdx, ∀ outKey ∈ o.1.key?,
    ∀ key ∈ (txPubKeys (acct.parseTxExtra tx.extra)).zipIdx,
      let additional := if key.2 = 0 then
        (additionalTxPubKeys (acct.parseTxExtra tx.extra)).map (keyDerivation acct) else []
      isOutToAccPrecomp acct table' outKey (keyDerivation acct key.1) additional o.2 =
        isOutToAccPrecomp acct table outKey (keyDerivation acct key.1) additional o.2

instance (table table' : PublicKey → Option SubaddressIndex) (tx : Transaction) (nVouts : ℕ) :
    Decidable (SameOwners acct table table' tx nVouts) :=
  inferInstanceAs (Decidable (∀ o ∈ (tx.vout.take nVouts).zipIdx, ∀ outKey ∈ o.1.key?, _))

/-- The block has the transactions it names, and the first one alone is a coinbase transaction. -/
structure ParsedBlock.Honest (b : ParsedBlock) : Prop where
  txes : b.txes.length = b.block.txHashes.length
  miner : b.block.minerTx.isCoinbase = true
  others : ∀ tx ∈ b.txes, tx.isCoinbase = false

theorem mem_cacheTxData_primary {iod : IsOutData} {l : ℕ}
    (h : (iod, l) ∈ (cacheTxData acct refreshType tx).primary.zipIdx) :
    iod.derivation = keyDerivation acct iod.pkey ∧
      (iod.pkey, l) ∈ (txPubKeys (acct.parseTxExtra tx.extra)).zipIdx ∧
      iod.received.length =
        (if tx.isCoinbase ∧ refreshType = .optimizeCoinbase then 1 else tx.vout.length) ∧
      (cacheTxData acct refreshType tx).additional.map IsOutData.derivation =
        (additionalTxPubKeys (acct.parseTxExtra tx.extra)).map (keyDerivation acct) := by
  unfold cacheTxData at h ⊢
  split at h
  · simp at h
  · next hcached =>
    rw [if_neg hcached]
    rw [mem_zipIdx_iff_getElem?, getElem?_map] at h
    obtain ⟨key, hkey, rfl⟩ := Option.map_eq_some_iff.mp h
    refine ⟨rfl, mem_zipIdx_iff_getElem?.mpr hkey, length_replicate, ?_⟩
    rw [map_map]
    rfl

section Geniod

/-- How many outputs of a transaction are looked up. -/
def recSize (refreshType : RefreshType) (tx : Transaction) : ℕ :=
  if tx.isCoinbase ∧ refreshType = .optimizeCoinbase then 1 else tx.vout.length

/-- What is found out for the output `k` and the public key `l`. -/
def answer (acct : Account) (table : PublicKey → Option SubaddressIndex) (tx : Transaction)
    (nVouts : ℕ) (data : TxCacheData) (iod : IsOutData × ℕ)
    (old : Option SubaddressReceiveInfo × ℕ) : Option SubaddressReceiveInfo :=
  match (tx.vout.take nVouts)[old.2]?.bind TxOut.key? with
  | none => old.1
  | some key => isOutToAccPrecomp acct table key iod.1.derivation
      (if iod.2 = 0 then data.additional.map IsOutData.derivation else []) old.2

/-- The data of a transaction with the owners of its outputs. -/
def answered (acct : Account) (table : PublicKey → Option SubaddressIndex)
    (refreshType : RefreshType) (tx : Transaction) : TxCacheData :=
  let data := cacheTxData acct refreshType tx
  { data with
    primary := data.primary.zipIdx.map fun iod =>
      { iod.1 with
        received := iod.1.received.zipIdx.map
          (answer acct table tx (recSize refreshType tx) data iod) } }

/-- The answers of a transaction, in closed form. -/
theorem geniod_eq (table : PublicKey → Option SubaddressIndex) :
    geniod acct table tx (recSize refreshType tx) (cacheTxData acct refreshType tx) =
      .ok (answered acct table refreshType tx) := by
  have hsizes : ∀ iod ∈ (cacheTxData acct refreshType tx).primary,
      iod.received.length = recSize refreshType tx := by
    intro iod hiod
    obtain ⟨l, hl⟩ := getElem?_of_mem hiod
    exact (mem_cacheTxData_primary (mem_zipIdx_iff_getElem?.mpr hl)).2.2.1
  unfold geniod require
  simp only
  rw [if_pos (.inr hsizes)]
  rfl

theorem mem_cacheTxData_of_key {key : PublicKey × ℕ}
    (hcached : ¬(tx.isCoinbase ∧ refreshType = .noCoinbase)) (hvout : tx.vout ≠ [])
    (h : key ∈ (txPubKeys (acct.parseTxExtra tx.extra)).zipIdx) :
    (⟨key.1, keyDerivation acct key.1, replicate (recSize refreshType tx) none⟩, key.2) ∈
      (cacheTxData acct refreshType tx).primary.zipIdx := by
  unfold cacheTxData
  rw [if_neg (not_or.mpr ⟨hcached, hvout⟩), mem_zipIdx_iff_getElem?, getElem?_map,
    mem_zipIdx_iff_getElem?.mp h]
  rfl

/-- The answers of two tables are the same exactly if the tables name the same owners. -/
theorem answered_eq_iff (table table' : PublicKey → Option SubaddressIndex)
    (hcached : ¬(tx.isCoinbase ∧ refreshType = .noCoinbase)) :
    answered acct table' refreshType tx = answered acct table refreshType tx ↔
      SameOwners acct table table' tx (recSize refreshType tx) := by
  rw [answered, answered, TxCacheData.mk.injEq]
  simp only [true_and, and_true, map_inj_left, IsOutData.mk.injEq]
  constructor
  · intro h o ho outKey houtKey key hkey
    have hget := mem_zipIdx_iff_getElem?.mp ho
    have hlt := (List.getElem?_eq_some_iff.mp hget).1
    rw [length_take, Nat.lt_min] at hlt
    have hiod :=
      mem_cacheTxData_of_key hcached (ne_nil_of_length_pos (Nat.zero_lt_of_lt hlt.2)) hkey
    have hold : (none, o.2) ∈
        (replicate (recSize refreshType tx) (none : Option SubaddressReceiveInfo)).zipIdx := by
      rw [mem_zipIdx_iff_getElem?, getElem?_replicate, if_pos hlt.1]
    have hanswer := h _ hiod _ hold
    have hfound : (tx.vout.take (recSize refreshType tx))[o.2]?.bind TxOut.key? = some outKey := by
      rw [hget]
      exact houtKey
    simpa only [answer, hfound, (mem_cacheTxData_primary hiod).2.2.2] using hanswer
  · intro h iod hiod old hold
    obtain ⟨hderivation, hpkey, -, hadditional⟩ := mem_cacheTxData_primary hiod
    unfold answer
    cases hkey : (tx.vout.take (recSize refreshType tx))[old.2]?.bind TxOut.key? with
    | none => rfl
    | some outKey =>
      obtain ⟨o, ho, houtKey⟩ := Option.bind_eq_some_iff.mp hkey
      simp only []
      rw [hadditional, hderivation]
      exact h (o, old.2) (mem_zipIdx_iff_getElem?.mpr ho) outKey houtKey (iod.1.pkey, iod.2) hpkey

end Geniod

/-- The data of a block with the owners of its outputs. -/
def cacheData (acct : Account) (w : Wallet) (b : ParsedBlock) (height : ℕ) : List TxCacheData :=
  if shouldSkipBlock w b.block height then replicate (1 + b.txes.length) .empty
  else
    (if w.refreshType = .noCoinbase then .empty
      else answered acct w.subaddresses w.refreshType b.block.minerTx) ::
        b.txes.map (answered acct w.subaddresses w.refreshType)

/-- `cache_tx_data` of a block does not fail, in closed form. -/
theorem cacheBlock_eq (hb : b.Honest) (w : Wallet) (height : ℕ) :
    cacheBlock acct w b height = .ok (cacheData acct w b height) := by
  have hminer : cacheMinerTx acct w b.block.minerTx = .ok (if w.refreshType = .noCoinbase
      then .empty else answered acct w.subaddresses w.refreshType b.block.minerTx) := by
    have hsize : (if w.refreshType = .optimizeCoinbase then 1 else b.block.minerTx.vout.length) =
        recSize w.refreshType b.block.minerTx := by
      simp [recSize, hb.miner]
    unfold cacheMinerTx
    rw [hsize, geniod_eq]
    split_ifs <;> rfl
  have hother : ∀ tx ∈ b.txes, geniod acct w.subaddresses tx tx.vout.length
      (cacheTxData acct w.refreshType tx) =
        .ok (answered acct w.subaddresses w.refreshType tx) := by
    intro tx htx
    have hsize : tx.vout.length = recSize w.refreshType tx := by
      simp [recSize, hb.others tx htx]
    rw [hsize, geniod_eq]
  unfold cacheBlock cacheData
  split_ifs with hskip
  · rfl
  · rw [hminer, mapM_ok _ hother]
    split_ifs
    rfl
  · rw [hminer, mapM_ok _ hother]
    split_ifs
    rfl

/-- The settings that the lookups depend on. -/
structure SameSettings (w w' : Wallet) : Prop where
  refreshType : w'.refreshType = w.refreshType
  createtime : w'.createtime = w.createtime
  refreshFromBlockHeight : w'.refreshFromBlockHeight = w.refreshFromBlockHeight

/-- The transactions of a block whose outputs are looked up. -/
def lookedUp (w : Wallet) (b : ParsedBlock) (height : ℕ) : List Transaction :=
  if shouldSkipBlock w b.block height then []
  else if w.refreshType = .noCoinbase then b.txes
  else b.block.minerTx :: b.txes

/-- The data found with the table of one wallet are those found with another's exactly if the two
name the same owners for what is looked up. -/
theorem cacheData_eq_iff (hb : b.Honest) (height : ℕ) (h : SameSettings w w') :
    cacheData acct w' b height = cacheData acct w b height ↔
      ∀ tx ∈ lookedUp w' b height,
        SameOwners acct w.subaddresses w'.subaddresses tx (recSize w'.refreshType tx) := by
  have hskip : shouldSkipBlock w' b.block height ↔ shouldSkipBlock w b.block height := by
    rw [shouldSkipBlock, h.createtime, h.refreshFromBlockHeight, shouldSkipBlock]
  have hothers : b.txes.map (answered acct w'.subaddresses w.refreshType) =
      b.txes.map (answered acct w.subaddresses w.refreshType) ↔ ∀ tx ∈ b.txes,
        SameOwners acct w.subaddresses w'.subaddresses tx (recSize w.refreshType tx) := by
    rw [map_inj_left]
    exact forall₂_congr fun tx htx => answered_eq_iff _ _ (by simp [hb.others tx htx])
  simp only [cacheData, lookedUp, hskip, h.refreshType]
  split_ifs with hskipped hcoinbase
  · simp
  · rw [cons.injEq, hothers]
    exact and_iff_right rfl
  · rw [cons.injEq, hothers, forall_mem_cons, answered_eq_iff _ _ (by simp [hcoinbase])]

theorem foldlM_zip_map {σ β : Type} {ε : Type} {step : σ → (ParsedBlock × β) × ℕ → Except ε σ}
    {g : ParsedBlock × ℕ → β} : ∀ (blocks : List ParsedBlock) (k : ℕ) (s : σ),
      ((blocks.zip ((blocks.zipIdx k).map g)).zipIdx k).foldlM step s =
        (blocks.zipIdx k).foldlM (fun s x => step s ((x.1, g x), x.2)) s
  | [], _, _ => rfl
  | b :: blocks, k, s => by
    exact bind_congr fun s' => foldlM_zip_map blocks (k + 1) s'

/-- A batch is a loop over its blocks, with what was looked up at its start. -/
theorem processParsedBlocks_eq {blocks : List ParsedBlock}
    (hbounds : w.blockchain.isInBounds startHeight) (hhonest : ∀ b ∈ blocks, b.Honest) :
    processParsedBlocks acct w startHeight blocks =
      blocks.zipIdx.foldlM (fun w' x => processParsedBlock acct startHeight w'
        ((x.1, cacheData acct w x.1 (startHeight + x.2)), x.2)) w := by
  have hdata : (blocks.zipIdx.mapM fun x => cacheBlock acct w x.1 (startHeight + x.2)) =
      .ok (blocks.zipIdx.map fun x => cacheData acct w x.1 (startHeight + x.2)) :=
    mapM_ok _ fun x hx => cacheBlock_eq (hhonest x.1 (fst_mem_of_mem_zipIdx hx)) w _
  have hsizes : ∀ b ∈ blocks, b.txes.length = b.block.txHashes.length :=
    fun b hb => (hhonest b hb).txes
  unfold processParsedBlocks
  simp only [require, if_pos hbounds, if_pos hsizes]
  rw [hdata]
  exact foldlM_zip_map blocks 0 w

/-- The block is the last one the wallet knows. -/
def Wallet.HasTop (w : Wallet) (top : ParsedBlock) : Prop :=
  w.blockchain.blockchain.getLast? = some top.hash

theorem Wallet.HasTop.isInBounds (h : w.HasTop top) :
    w.blockchain.isInBounds (w.blockchain.size - 1) := by
  have hpos : 0 < w.blockchain.blockchain.length :=
    length_pos_iff.mpr (getLast?_isSome.mp (by rw [h]; rfl))
  constructor <;> simp only [HashChain.size] <;> omega

theorem Wallet.HasTop.get (h : w.HasTop top) :
    w.blockchain.get (w.blockchain.size - 1) = some top.hash := by
  rw [HashChain.get, HashChain.size, ← h, getLast?_eq_getElem?]
  congr 1
  omega

theorem get_size (w : Wallet) : w.blockchain.get w.blockchain.size = none := by
  rw [HashChain.get, HashChain.size, getElem?_eq_none_iff]
  omega

/-- The block known already is passed over. -/
theorem processParsedBlock_top (h : w.HasTop top) (data : List TxCacheData) :
    processParsedBlock acct (w.blockchain.size - 1) w ((top, data), 0) = .ok w := by
  unfold processParsedBlock
  simp only [Nat.add_zero, h.get]
  rfl

theorem processParsedBlock_new {i : ℕ} (data : List TxCacheData)
    (h : startHeight + i = w.blockchain.size) :
    processParsedBlock acct startHeight w ((b, data), i) =
      processNewBlockchainEntry acct w b w.blockchain.size data := by
  unfold processParsedBlock
  simp only [h, get_size]

/-- The call for one block. The list of a call begins with the block the wallet has last. -/
def nextBlock (acct : Account) (s : Wallet × ParsedBlock) (b : ParsedBlock) :
    Except Thrown (Wallet × ParsedBlock) :=
  (processParsedBlocks acct s.1 (s.1.blockchain.size - 1) [s.2, b]).map (·, b)

/-- A block alone is processed with what is looked up for it. -/
theorem nextBlock_eq (htop : w.HasTop top) (hhonest : top.Honest) (hb : b.Honest) :
    nextBlock acct (w, top) b = (processNewBlockchainEntry acct w b w.blockchain.size
      (cacheData acct w b w.blockchain.size)).map (·, b) := by
  have hsize : w.blockchain.size - 1 + 1 = w.blockchain.size := by
    have := htop.isInBounds.2
    omega
  rw [nextBlock, processParsedBlocks_eq htop.isInBounds (by simp [hhonest, hb])]
  simp only [zipIdx_cons, zipIdx_nil, foldlM_cons, foldlM_nil]
  rw [processParsedBlock_top htop, ok_bind, processParsedBlock_new _ hsize, hsize, bind_pure]

theorem SameSettings.newEntry {height : ℕ} {data : List TxCacheData} (h : SameSettings w₀ w)
    (hw' : processNewBlockchainEntry acct w b height data = .ok w') :
    SameSettings w₀ w' ∧ w'.blockchain = w.blockchain.pushBack b.hash ∧
      TableGrown acct w.subaddresses w'.subaddresses := by
  have hensures : Ensures _ _ (processNewBlockchainEntry acct w b height data) :=
    processNewBlockchainEntry_touched
  rw [hw'] at hensures
  obtain ⟨w₁, htouched, rfl⟩ := hensures
  have hframe := htouched.frame
  refine ⟨⟨?_, ?_, ?_⟩, rfl, htouched.grown⟩
  · exact (eq_of_frame Wallet.refreshType (fun _ => rfl) hframe).trans h.refreshType
  · exact (eq_of_frame Wallet.createtime (fun _ => rfl) hframe).trans h.createtime
  · exact (eq_of_frame Wallet.refreshFromBlockHeight (fun _ => rfl) hframe).trans
      h.refreshFromBlockHeight

theorem hasTop_of_pushBack {c : HashChain} (h : w.blockchain = c.pushBack b.hash) :
    w.HasTop b ∧ w.blockchain.size = c.size + 1 := by
  rw [Wallet.HasTop, h]
  refine ⟨getLast?_concat, ?_⟩
  simp only [HashChain.size, HashChain.pushBack, length_append, length_singleton]
  omega

/-- The table at the start names the same owners as the one at hand for what is looked up of the
next block. -/
def SafeNext (acct : Account) (table : PublicKey → Option SubaddressIndex)
    (s : Wallet × ParsedBlock)
    (b : ParsedBlock) : Prop :=
  ∀ tx ∈ lookedUp s.1 b s.1.blockchain.size,
    SameOwners acct table s.1.subaddresses tx (recSize s.1.refreshType tx)

instance (table : PublicKey → Option SubaddressIndex) (s : Wallet × ParsedBlock) (b : ParsedBlock) :
    Decidable (SafeNext acct table s b) :=
  inferInstanceAs (Decidable (∀ tx ∈ lookedUp s.1 b s.1.blockchain.size, _))

/-- The loop is the blocks one by one, as long as each finds what it would look up. -/
theorem foldlM_eq_nextBlocks :
    ∀ (blocks : List ParsedBlock) (k : ℕ) (w : Wallet) (top : ParsedBlock), w.HasTop top →
      startHeight + k = w.blockchain.size → SameSettings w₀ w → top.Honest →
      (∀ b ∈ blocks, b.Honest) →
      Runs.SafeRun (fun s b => (nextBlock acct s b).toOption) (SafeNext acct w₀.subaddresses)
        (w, top) blocks →
      (blocks.zipIdx k).foldlM (fun w' x => processParsedBlock acct startHeight w'
        ((x.1, cacheData acct w₀ x.1 (startHeight + x.2)), x.2)) w =
          (blocks.foldlM (nextBlock acct) (w, top)).map (·.1)
  | [], _, _, _, _, _, _, _, _, _ => rfl
  | b :: blocks, k, w, top, htop, hk, hsame, hhonest, hblocks, ⟨hsafe, hrest⟩ => by
    have hb : b.Honest := hblocks b mem_cons_self
    rw [zipIdx_cons, foldlM_cons, foldlM_cons, processParsedBlock_new _ hk, hk,
      nextBlock_eq htop hhonest hb, (cacheData_eq_iff hb _ hsame).mpr hsafe]
    cases hentry : processNewBlockchainEntry acct w b w.blockchain.size
        (cacheData acct w₀ b w.blockchain.size) with
    | error e => rfl
    | ok w' =>
      obtain ⟨hsame', hchain, -⟩ := hsame.newEntry hentry
      obtain ⟨htop', hsize⟩ := hasTop_of_pushBack hchain
      refine foldlM_eq_nextBlocks blocks (k + 1) w' b htop' (by omega) hsame' hb
        (fun b' hb' => hblocks b' (mem_cons_of_mem _ hb')) (hrest (w', b) ?_)
      show (nextBlock acct (w, top) b).toOption = _
      rw [nextBlock_eq htop hhonest hb, (cacheData_eq_iff hb _ hsame).mpr hsafe, hentry]
      rfl

/-- One call for a list of new blocks does what a call for each of them does, if the owners that it
looks up at the start are those that each call looks up. -/
theorem processParsedBlocks_eq_nextBlocks (acct : Account) (w : Wallet) (top : ParsedBlock)
    (blocks : List ParsedBlock) (htop : w.HasTop top) (hhonest : ∀ b ∈ top :: blocks, b.Honest)
    (hsafe : Runs.SafeRun (fun s b => (nextBlock acct s b).toOption)
      (SafeNext acct w.subaddresses) (w, top) blocks) :
    processParsedBlocks acct w (w.blockchain.size - 1) (top :: blocks) =
      (blocks.foldlM (nextBlock acct) (w, top)).map (·.1) := by
  have hsize : w.blockchain.size - 1 + 1 = w.blockchain.size := by
    have := htop.isInBounds.2
    omega
  obtain ⟨htopHonest, hblocks⟩ := forall_mem_cons.mp hhonest
  rw [processParsedBlocks_eq htop.isInBounds hhonest, zipIdx_cons, foldlM_cons]
  rw [processParsedBlock_top htop]
  exact foldlM_eq_nextBlocks blocks 1 w top htop hsize ⟨rfl, rfl, rfl⟩ htopHonest hblocks hsafe

theorem minedBlock_honest (height : ℕ) (amount : UInt64) (key : PublicKey) :
    (minedBlock height amount key).Honest :=
  ⟨rfl, rfl, by simp [minedBlock]⟩

/-- The second block pays a subaddress that was in the table from the start. -/
theorem processParsedBlocks_eq_nextBlocks_tabled :
    processParsedBlocks plainAccount plainWallet 0
        [minedBlock 0 1 0, minedBlock 1 10 101, minedBlock 2 5 201] =
      ([minedBlock 1 10 101, minedBlock 2 5 201].foldlM (nextBlock plainAccount)
        (plainWallet, minedBlock 0 1 0)).map (·.1) :=
  processParsedBlocks_eq_nextBlocks plainAccount plainWallet (minedBlock 0 1 0)
    [minedBlock 1 10 101, minedBlock 2 5 201] rfl
    (by simp [minedBlock_honest]) (by decide +kernel)

/-- An owner that is missed makes no difference if the output has no amount. -/
example :
    ¬Runs.SafeRun (fun s b => (nextBlock plainAccount s b).toOption)
        (SafeNext plainAccount plainWallet.subaddresses) (plainWallet, minedBlock 0 1 0)
        [minedBlock 1 10 102, minedBlock 2 0 103] ∧
      (processParsedBlocks plainAccount plainWallet 0
          [minedBlock 0 1 0, minedBlock 1 10 102, minedBlock 2 0 103]).toOption.map (·.transfers) =
        ([minedBlock 1 10 102, minedBlock 2 0 103].foldlM (nextBlock plainAccount)
          (plainWallet, minedBlock 0 1 0)).toOption.map (·.1.transfers) := by
  decide +kernel

/-- The first block makes the wallet add the subaddress that the second block pays. -/
theorem processParsedBlocks_misses_output :
    ∃ w w', processParsedBlocks plainAccount plainWallet 0
        [minedBlock 0 1 0, minedBlock 1 10 102, minedBlock 2 5 103] = .ok w ∧
      ([minedBlock 1 10 102, minedBlock 2 5 103].foldlM (nextBlock plainAccount)
        (plainWallet, minedBlock 0 1 0)).map (·.1) = .ok w' ∧
      w.transfers.length = 1 ∧ w'.transfers.length = 2 := by
  obtain ⟨w, hw, hone⟩ := exists_ok_of_any (p := fun w : Wallet => w.transfers.length == 1)
    (x := processParsedBlocks plainAccount plainWallet 0
      [minedBlock 0 1 0, minedBlock 1 10 102, minedBlock 2 5 103]) (by decide +kernel)
  obtain ⟨w', hw', htwo⟩ := exists_ok_of_any (p := fun w : Wallet => w.transfers.length == 2)
    (x := ([minedBlock 1 10 102, minedBlock 2 5 103].foldlM (nextBlock plainAccount)
      (plainWallet, minedBlock 0 1 0)).map (·.1)) (by decide +kernel)
  exact ⟨w, w', hw, hw', beq_iff_eq.mp hone, beq_iff_eq.mp htwo⟩

end Nerva
