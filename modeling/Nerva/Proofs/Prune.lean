import Nerva.Lib.Runs
import Nerva.Proofs.PopBlock
import Nerva.Prune

/-!
# What the pruning seed promises

A node with a pruning seed says that it has the prunable data of its stripe and of the last blocks.
Popping a block makes the block that left the last ones most recently one of them again, and its
data may be gone.
-/

namespace Nerva

open Checks Std List TxTables

/-- The block is in the stripe of the seed. -/
def InStripe (blockHeight : ℕ) (pruningSeed : UInt32) : Prop :=
  getPruningStripe pruningSeed = 0 ∨
    blockHeight / cryptonotePruningStripeSize % 2 ^ getPruningLogStripes pruningSeed + 1 =
      getPruningStripe pruningSeed

/-- A block is kept whole near the tip and in the node's stripe. -/
theorem hasUnprunedBlock_iff {blockHeight height : ℕ} {pruningSeed : UInt32} :
    hasUnprunedBlock blockHeight height pruningSeed = true ↔
      height ≤ blockHeight + cryptonotePruningTipBlocks ∨ InStripe blockHeight pruningSeed := by
  simp only [hasUnprunedBlock, getBlockPruningStripe, InStripe]
  by_cases hstripe : getPruningStripe pruningSeed = 0
  · simp [hstripe]
  · by_cases htip : height ≤ blockHeight + cryptonotePruningTipBlocks
    · simp [htip]
    · simp [htip]

variable {seed : UInt32}

theorem makePruningSeed_ok {stripe : ℕ}
    (h : makePruningSeed stripe cryptonotePruningLogStripes = .ok seed) :
    getPruningStripe seed = stripe ∧ getPruningLogStripes seed = cryptonotePruningLogStripes := by
  simp only [makePruningSeed, bind_eq_ok, require_eq_ok, exists_unit, pure_eq_ok] at h
  obtain ⟨-, ⟨hpos, hle⟩, rfl⟩ := h
  have hall : ∀ s < 8, getPruningStripe (UInt32.ofNat cryptonotePruningLogStripes <<<
        pruningSeedLogStripesShift ||| UInt32.ofNat s) = s + 1 ∧
      getPruningLogStripes (UInt32.ofNat cryptonotePruningLogStripes <<<
        pruningSeedLogStripesShift ||| UInt32.ofNat s) = cryptonotePruningLogStripes := by decide
  have hlt : stripe - 1 < 8 := by
    have : 2 ^ cryptonotePruningLogStripes = 8 := rfl
    omega
  obtain ⟨hstripe, hlog⟩ := hall (stripe - 1) hlt
  exact ⟨hstripe.trans (by omega), hlog⟩

namespace TxTables

variable {env : DbEnv} {t t' t'' : TxTables} {txId : ℕ}

/-- The transaction can be read whole. -/
def Present (env : DbEnv) (t : TxTables) (txId : ℕ) : Prop :=
  ∃ pruned prunable, t.txsPruned[txId]? = some pruned ∧ t.txsPrunable[txId]? = some prunable ∧
    (env.parseTx (pruned ++ prunable)).isSome

def IsV2 (env : DbEnv) (t : TxTables) (txId : ℕ) : Prop :=
  ∃ pruned, t.txsPruned[txId]? = some pruned ∧ env.isV1Tx pruned = some false

/-- The rows of one transaction are the same. -/
structure SameAt (t t' : TxTables) (txId : ℕ) : Prop where
  pruned : t'.txsPruned[txId]? = t.txsPruned[txId]?
  prunable : t'.txsPrunable[txId]? = t.txsPrunable[txId]?

theorem SameAt.refl (t : TxTables) (txId : ℕ) : SameAt t t txId := ⟨rfl, rfl⟩

theorem SameAt.trans (h : SameAt t t' txId) (h' : SameAt t' t'' txId) : SameAt t t'' txId :=
  ⟨h'.pruned.trans h.pruned, h'.prunable.trans h.prunable⟩

theorem SameAt.present_iff (h : SameAt t t' txId) : t'.Present env txId ↔ t.Present env txId := by
  unfold Present
  rw [h.pruned, h.prunable]

theorem SameAt.isV2_iff (h : SameAt t t' txId) : t'.IsV2 env txId ↔ t.IsV2 env txId := by
  unfold IsV2
  rw [h.pruned]

end TxTables

/-- The blob is one of a transaction after version 1. -/
def TxEntry.IsV2 {env : DbEnv} (e : TxEntry env) : Prop :=
  env.isV1Tx (e.blob.take (env.unprunableSize e.tx)) = some false

theorem BlockTables.size_removeBlock {env : DbEnv} {t t' : BlockTables} {blk : Block}
    (htop : t.getTopBlock env = .ok (some blk)) (h : t.removeBlock = .ok t') :
    t.blocks.size = t'.blocks.size + 1 := by
  unfold getTopBlock at htop
  split at htop
  · cases htop
  · simp only [bind_eq_ok, demand_eq_ok] at htop
    obtain ⟨bd, hbd, -⟩ := htop
    simp only [removeBlock, bind_eq_ok, exists_unit, pure_eq_ok] at h
    obtain ⟨-, bi, -, n, -, rfl⟩ := h
    exact (Table.size_erase_of_some hbd).symm

namespace Lmdb

variable {env : DbEnv} {db db' db'' : Lmdb} {txHash : Hash} {e : TxEntry env} {txId : ℕ}
  {blk : Block} {txs : List Transaction}

/-- Every transaction of version 2 in a block that the node says it has is there as a whole. -/
def HasPromised (env : DbEnv) (db : Lmdb) : Prop :=
  ∀ (h : Hash) (ti : TxIndex), db.txIndices[h]? = some ti → db.IsV2 env ti.txId →
    hasUnprunedBlock ti.blockId db.height db.getBlockchainPruningSeed = true →
      db.Present env ti.txId

/-- The transactions with these hashes were removed, and nothing has changed for those that stay. -/
structure Shrinks (db : Lmdb) (removed : List Hash) (db' : Lmdb) : Prop where
  indexed : db'.Indexed
  stay_iff : ∀ (h : Hash) (ti : TxIndex),
    db'.txIndices[h]? = some ti ↔ h ∉ removed ∧ db.txIndices[h]? = some ti
  sameAt : ∀ (h : Hash) (ti : TxIndex), db'.txIndices[h]? = some ti →
    TxTables.SameAt db.toTxTables db'.toTxTables ti.txId
  blockTables : db'.toBlockTables = db.toBlockTables
  pruningSeed : db'.pruningSeed = db.pruningSeed

theorem Shrinks.trans {hs hs' : List Hash} (h : Shrinks db hs db') (h' : Shrinks db' hs' db'') :
    Shrinks db (hs ++ hs') db'' where
  indexed := h'.indexed
  stay_iff := fun id ti => by
    rw [h'.stay_iff, h.stay_iff, mem_append, not_or, and_left_comm, and_assoc]
  sameAt := fun id ti hti =>
    (h.sameAt id ti ((h'.stay_iff id ti).1 hti).2).trans (h'.sameAt id ti hti)
  blockTables := h'.blockTables.trans h.blockTables
  pruningSeed := h'.pruningSeed.trans h.pruningSeed

theorem removeTransaction_shrinks (hdb : db.Indexed)
    (h : db.removeTransaction env txHash = .ok db') :
    Shrinks db [txHash] db' := by
  obtain ⟨ti, tx, hrem⟩ := removeTransaction_ok h
  have hstay : ∀ (id : Hash) (ti' : TxIndex),
      db'.txIndices[id]? = some ti' ↔ id ∉ [txHash] ∧ db.txIndices[id]? = some ti' := by
    intro id ti'
    rw [hrem.txIndices, Table.getElem?_erase_eq_some, mem_singleton, ne_comm]
  refine ⟨hrem.indexed hdb, hstay, fun id ti' hti' => ?_, hrem.blockTables, hrem.pruningSeed⟩
  obtain ⟨hne, hti'⟩ := (hstay id ti').1 hti'
  have hid := hrem.id_ne hdb (fun heq => hne (mem_singleton.2 heq.symm)) hti'
  constructor
  · rw [hrem.txsPruned, Table.getElem?_erase_of_ne hid]
  · rw [hrem.txsPrunable, Table.getElem?_erase_of_ne hid]

theorem popTransactions_shrinks : ∀ {hs : List Hash} {db : Lmdb} {txs : List Transaction},
    db.Indexed → db.popTransactions env hs = .ok (txs, db') → Shrinks db hs db'
  | [], _, _, hdb, h => by
    cases h
    exact ⟨hdb, fun _ _ => by simp, fun _ _ _ => .refl _ _, rfl, rfl⟩
  | _ :: hs, db, _, hdb, h => by
    obtain ⟨tx, db₁, rest, -, hrem, hrest, rfl⟩ := popTransactions_cons.1 h
    have hshrinks := removeTransaction_shrinks hdb hrem
    exact hshrinks.trans (popTransactions_shrinks hshrinks.indexed hrest)

/-- Popping a block removes its transactions and no others. -/
theorem popBlock_shrinks (hdb : db.Indexed) (h : db.popBlock env = .ok (blk, txs, db')) :
    Shrinks { db with toBlockTables := db'.toBlockTables }
        (blk.txHashes.reverse ++ [env.txHash blk.minerTx]) db' ∧ db.height = db'.height + 1 := by
  simp only [popBlock, bind_eq_ok, pure_eq_ok, demand_eq_ok, Prod.exists, Prod.mk.injEq] at h
  obtain ⟨top, htop, blocks, hremove, blk, rfl, txs, db₁, hpop, db₂, hrem, rfl, rfl, rfl⟩ := h
  have hdb₀ : ({ db with toBlockTables := blocks } : Lmdb).Indexed := hdb.congr rfl
  have hpopped := popTransactions_shrinks hdb₀ hpop
  have hshrinks := hpopped.trans (removeTransaction_shrinks hpopped.indexed hrem)
  have hblocks : db₂.toBlockTables = blocks := hshrinks.blockTables
  rw [hblocks]
  refine ⟨hshrinks, ?_⟩
  rw [height, height, hblocks]
  exact BlockTables.size_removeBlock htop hremove

/-- If the top block can be popped, the transactions of other blocks that the last ones then include
again are there as a whole. -/
def SafePop (env : DbEnv) (db : Lmdb) : Prop :=
  ∀ blk txs db', db.popBlock env = .ok (blk, txs, db') →
    ∀ (h : Hash) (ti : TxIndex), h ∉ blk.txHashes → h ≠ env.txHash blk.minerTx →
      db.txIndices[h]? = some ti → db.IsV2 env ti.txId →
      ti.blockId + cryptonotePruningTipBlocks + 1 = db.height → db.Present env ti.txId

/-- A popped block leaves the promise kept exactly when no transaction that stays comes to be
promised without its data. -/
theorem popBlock_hasPromised_iff (hdb : db.Indexed) (hhas : db.HasPromised env)
    (hpop : db.popBlock env = .ok (blk, txs, db')) : db'.HasPromised env ↔ db.SafePop env := by
  obtain ⟨hshrinks, hheight⟩ := popBlock_shrinks hdb hpop
  have hseed : db'.getBlockchainPruningSeed = db.getBlockchainPruningSeed :=
    congrArg (·.getD 0) hshrinks.pruningSeed
  constructor
  · intro hhas' blk₁ txs₁ db₁ hpop₁ h ti hother hminer hti hv2 hback
    rw [hpop] at hpop₁
    cases hpop₁
    have hti : db'.txIndices[h]? = some ti :=
      (hshrinks.stay_iff h ti).2 ⟨by simp [hother, hminer], hti⟩
    have hsame := hshrinks.sameAt h ti hti
    refine hsame.present_iff.1 (hhas' h ti hti (hsame.isV2_iff.2 hv2) ?_)
    exact hasUnprunedBlock_iff.2 (.inl (by omega))
  · intro hsafe h ti hti hv2 hunpruned
    obtain ⟨hstays, hti'⟩ := (hshrinks.stay_iff h ti).1 hti
    have hsame := hshrinks.sameAt h ti hti
    have hv2' : db.IsV2 env ti.txId := hsame.isV2_iff.1 hv2
    refine hsame.present_iff.2 ?_
    -- a block of the last ones now was one of them before, or has just come back
    by_cases hback : ti.blockId + cryptonotePruningTipBlocks + 1 = db.height
    · rw [mem_append, mem_reverse, mem_singleton, not_or] at hstays
      exact hsafe blk txs db' hpop h ti hstays.1 hstays.2 hti' hv2' hback
    · refine hhas h ti hti' hv2' (hasUnprunedBlock_iff.2 ?_)
      rw [hseed] at hunpruned
      rcases hasUnprunedBlock_iff.1 hunpruned with htip | hstripe
      · exact .inl (by omega)
      · exact .inr hstripe

/-- The two parts of the blob are stored. -/
structure StoredAs (db : Lmdb) (txId : ℕ) (e : TxEntry env) : Prop where
  pruned : db.txsPruned[txId]? = some (e.blob.take (env.unprunableSize e.tx))
  prunable : db.txsPrunable[txId]? = some (e.blob.drop (env.unprunableSize e.tx))

theorem StoredAs.of_sameAt (h : db.StoredAs txId e)
    (hsame : TxTables.SameAt db.toTxTables db'.toTxTables txId) : db'.StoredAs txId e :=
  ⟨hsame.pruned.trans h.pruned, hsame.prunable.trans h.prunable⟩

theorem StoredAs.present_iff (h : db.StoredAs txId e) :
    db.Present env txId ↔ (env.parseTx e.blob).isSome := by
  simp [TxTables.Present, h.pruned, h.prunable]

theorem StoredAs.isV2_iff (h : db.StoredAs txId e) : db.IsV2 env txId ↔ e.IsV2 := by
  simp [TxTables.IsV2, TxEntry.IsV2, h.pruned]

/-- Transactions were added, those of the entries with known inputs. -/
structure Grows (db : Lmdb) (l : List (Hash × TxEntry env)) (db' : Lmdb) : Prop where
  indexed : db'.Indexed
  stay : ∀ (h : Hash) (ti : TxIndex), db.txIndices[h]? = some ti →
    db'.txIndices[h]? = some ti ∧ TxTables.SameAt db.toTxTables db'.toTxTables ti.txId
  new : ∀ (h : Hash) (ti : TxIndex), db'.txIndices[h]? = some ti → db.txIndices[h]? = some ti ∨
    ∃ x ∈ l, x.2.tx.vin.all TxIn.supported = true ∧ ti.blockId = db.height ∧
      db'.StoredAs ti.txId x.2
  added : ∀ x ∈ l, x.2.tx.vin.all TxIn.supported = true → ∃ ti : TxIndex,
    db'.txIndices[x.1]? = some ti ∧ ti.blockId = db.height ∧ db'.StoredAs ti.txId x.2
  blockTables : db'.toBlockTables = db.toBlockTables
  pruningSeed : db'.pruningSeed = db.pruningSeed

theorem AddsTx.sameAt {tx : Transaction} {blob : Blob} {h : Hash} {ti : TxIndex}
    (hadd : AddsTx env db tx blob txHash db') (hdb : db.Indexed)
    (hti : db.txIndices[h]? = some ti) :
    TxTables.SameAt db.toTxTables db'.toTxTables ti.txId := by
  have hid := hadd.id_ne hdb hti
  refine ⟨?_, ?_⟩
  · rw [hadd.txsPruned, Table.getElem?_insert_of_ne hid]
  · rw [hadd.txsPrunable, Table.getElem?_insert_of_ne hid]

/-- Adding a transaction adds its rows only. -/
theorem AddsTx.grows (hadd : AddsTx env db e.tx e.blob txHash db') (hdb : db.Indexed) :
    Grows db [(txHash, e)] db' := by
  have hstored : db'.StoredAs db.txsPruned.size e :=
    ⟨by rw [hadd.txsPruned, ExtTreeMap.getElem?_insert_self],
      by rw [hadd.txsPrunable, ExtTreeMap.getElem?_insert_self]⟩
  refine ⟨hadd.indexed hdb, fun h ti hti => ⟨?_, hadd.sameAt hdb hti⟩, fun h ti hti => ?_, ?_,
    hadd.blockTables, hadd.pruningSeed⟩
  · rw [hadd.txIndices, Table.getElem?_insert_of_ne (hadd.hash_ne hti), hti]
  · rw [hadd.txIndices] at hti
    rcases Table.getElem?_insert_eq_some.1 hti with ⟨rfl, rfl⟩ | ⟨-, hti⟩
    · exact .inr ⟨_, mem_singleton_self _, hadd.supported, rfl, hstored⟩
    · exact .inl hti
  · simp only [mem_singleton, forall_eq]
    exact fun _ => ⟨_, by rw [hadd.txIndices, ExtTreeMap.getElem?_insert_self], rfl, hstored⟩

theorem Grows.append {l l' : List (Hash × TxEntry env)} (h : Grows db l db')
    (h' : Grows db' l' db'') : Grows db (l ++ l') db'' := by
  have hheight : db'.height = db.height := congrArg (·.blocks.size) h.blockTables
  refine ⟨h'.indexed, fun id ti hti => ?_, fun id ti hti => ?_, fun x hx hsupported => ?_,
    h'.blockTables.trans h.blockTables, h'.pruningSeed.trans h.pruningSeed⟩
  · obtain ⟨hti', hsame⟩ := h.stay id ti hti
    obtain ⟨hti'', hsame'⟩ := h'.stay id ti hti'
    exact ⟨hti'', hsame.trans hsame'⟩
  · rcases h'.new id ti hti with hti' | ⟨x, hx, hsupported, hblock, hstored⟩
    · rcases h.new id ti hti' with hti | ⟨x, hx, hsupported, hblock, hstored⟩
      · exact .inl hti
      · exact .inr ⟨x, mem_append_left _ hx, hsupported, hblock,
          hstored.of_sameAt (h'.stay id ti hti').2⟩
    · exact .inr ⟨x, mem_append_right _ hx, hsupported, hblock.trans hheight, hstored⟩
  · rcases mem_append.1 hx with hx | hx
    · obtain ⟨ti, hti, hblock, hstored⟩ := h.added x hx hsupported
      obtain ⟨hti', hsame⟩ := h'.stay x.1 ti hti
      exact ⟨ti, hti', hblock, hstored.of_sameAt hsame⟩
    · obtain ⟨ti, hti, hblock, hstored⟩ := h'.added x hx hsupported
      exact ⟨ti, hti, hblock.trans hheight, hstored⟩

theorem addTransactions_grows : ∀ {l : List (Hash × TxEntry env)} {db : Lmdb}, db.Indexed →
    db.addTransactions env l = .ok db' → Grows db l db'
  | [], _, hdb, h => by
    cases h
    exact ⟨hdb, fun _ _ hti => ⟨hti, .refl _ _⟩, fun _ _ => .inl, by simp, rfl, rfl⟩
  | (txHash, e) :: rest, db, hdb, h => by
    obtain ⟨db₁, hadd, hrest⟩ := addTransactions_cons.1 h
    have hfirst : Grows db [(txHash, e)] db₁ := by
      rcases addTransaction_cases hadd with hadd | ⟨hnot, keys, rfl⟩
      · exact hadd.grows hdb
      · refine ⟨hdb.congr rfl, fun _ _ hti => ⟨hti, .refl _ _⟩, fun _ _ => .inl, ?_, rfl, rfl⟩
        simp only [mem_singleton, forall_eq]
        intro hsupported
        rw [hnot] at hsupported
        cases hsupported
    exact hfirst.append (addTransactions_grows hfirst.indexed hrest)

/-- Every transaction after version 1 that is stored comes whole. -/
def SafeAdd (entry : BlockEntry env) : Prop :=
  ∀ e ∈ entry.minerEntry :: entry.txs, e.tx.vin.all TxIn.supported = true → e.IsV2 →
    (env.parseTx e.blob).isSome

/-- An added block leaves the promise kept exactly when its transactions come whole. -/
theorem addBlock_hasPromised_iff (hdb : db.Indexed) (hhas : db.HasPromised env)
    {entry : BlockEntry env} (hadd : db.addBlock env entry = .ok db') :
    db'.HasPromised env ↔ SafeAdd entry := by
  obtain ⟨hlen, db₁, htxs, blocks, hblocks, rfl⟩ := addBlock_ok hadd
  have hgrows := addTransactions_grows hdb htxs
  obtain ⟨bi, -, hfresh, -, -, rfl⟩ := BlockTables.addBlock_ok hblocks
  have hsize : db₁.height = db.height := congrArg (·.blocks.size) hgrows.blockTables
  have hheight : (db₁.blocks.insert db₁.blocks.size (env.blockToBlob entry.blk)).size =
      db.height + 1 := by
    rw [Table.size_insert_of_none hfresh, ← hsize]
    rfl
  have hseed : db₁.getBlockchainPruningSeed = db.getBlockchainPruningSeed :=
    congrArg (·.getD 0) hgrows.pruningSeed
  constructor
  · intro hhas' e he hsupported hv2
    rw [← BlockEntry.map_snd_allHashed hlen] at he
    obtain ⟨x, hx, rfl⟩ := mem_map.1 he
    obtain ⟨ti, hti, hblock, hstored⟩ := hgrows.added x hx hsupported
    refine hstored.present_iff.1 (hhas' x.1 ti hti (hstored.isV2_iff.2 hv2) ?_)
    refine hasUnprunedBlock_iff.2 (.inl ?_)
    rw [height, hheight, cryptonotePruningTipBlocks]
    omega
  · intro hsafe h ti hti hv2 hunpruned
    rcases hgrows.new h ti hti with hold | ⟨x, hx, hsupported, hblock, hstored⟩
    · obtain ⟨-, hsame⟩ := hgrows.stay h ti hold
      refine hsame.present_iff.2 (hhas h ti hold (hsame.isV2_iff.1 hv2) (hasUnprunedBlock_iff.2 ?_))
      rw [← hseed]
      rcases hasUnprunedBlock_iff.1 hunpruned with htip | hstripe
      · rw [height, hheight] at htip
        exact .inl (by omega)
      · exact .inr hstripe
    · have hmem : x.2 ∈ entry.minerEntry :: entry.txs :=
        BlockEntry.map_snd_allHashed hlen ▸ mem_map_of_mem hx
      exact hstored.present_iff.2 (hsafe x.2 hmem hsupported (hstored.isV2_iff.1 hv2))

end Lmdb

namespace TxTables

/-- Prunable data was deleted, of transactions among `rows` whose block is not one to keep. -/
structure PrunedAmong (height : ℕ) (seed : UInt32) (rows : List (ℕ × ℕ)) (t t' : TxTables) :
    Prop where
  txIndices : t'.txIndices = t.txIndices
  txsPruned : t'.txsPruned = t.txsPruned
  txsPrunableHash : t'.txsPrunableHash = t.txsPrunableHash
  txOutputs : t'.txOutputs = t.txOutputs
  prunable : ∀ txId : ℕ, t'.txsPrunable[txId]? = t.txsPrunable[txId]? ∨
    t'.txsPrunable[txId]? = none ∧ ∃ b, (txId, b) ∈ rows ∧ hasUnprunedBlock b height seed = false
  tips : ∀ txId b : ℕ, t'.txsPrunableTip[txId]? = some b →
    t.txsPrunableTip[txId]? = some b ∨ (txId, b) ∈ rows

section Loops

variable {env : DbEnv} {height : ℕ} {seed : UInt32} {rows rows' : List (ℕ × ℕ)}
  {t t' t'' : TxTables}
  {txId blockHeight : ℕ} {ti : TxIndex}

theorem PrunedAmong.refl : PrunedAmong height seed rows t t :=
  ⟨rfl, rfl, rfl, rfl, fun _ => .inl rfl, fun _ _ => .inl⟩

section

variable (h : PrunedAmong height seed rows t t')

include h

theorem PrunedAmong.none_of_none (hnone : t.txsPrunable[txId]? = none) :
    t'.txsPrunable[txId]? = none := by
  rcases h.prunable txId with hsame | ⟨hgone, -⟩
  · rw [hsame, hnone]
  · exact hgone

theorem PrunedAmong.trans (h' : PrunedAmong height seed rows' t' t'') :
    PrunedAmong height seed (rows ++ rows') t t'' := by
  refine ⟨h'.txIndices.trans h.txIndices, h'.txsPruned.trans h.txsPruned,
    h'.txsPrunableHash.trans h.txsPrunableHash, h'.txOutputs.trans h.txOutputs, fun id => ?_,
    fun id b htip => ?_⟩
  · rcases h'.prunable id with hsame' | ⟨hgone, b, hb, hold⟩
    · rcases h.prunable id with hsame | ⟨hgone, b, hb, hold⟩
      · exact .inl (hsame'.trans hsame)
      · exact .inr ⟨hsame'.trans hgone, b, mem_append_left _ hb, hold⟩
    · exact .inr ⟨hgone, b, mem_append_right _ hb, hold⟩
  · rcases h'.tips id b htip with htip | hb
    · rcases h.tips id b htip with htip | hb
      · exact .inl htip
      · exact .inr (mem_append_left _ hb)
    · exact .inr (mem_append_right _ hb)

theorem PrunedAmong.mono (hsub : rows ⊆ rows') : PrunedAmong height seed rows' t t' := by
  refine ⟨h.txIndices, h.txsPruned, h.txsPrunableHash, h.txOutputs, fun id => ?_,
    fun id b htip => ?_⟩
  · exact (h.prunable id).imp_right fun ⟨hgone, b, hb, hold⟩ => ⟨hgone, b, hsub hb, hold⟩
  · exact (h.tips id b htip).imp_right fun hb => hsub hb

end

/-- Only the data of blocks outside the stripe is deleted. -/
theorem pruneTx_prunedAmong (h : t.pruneTx env height seed txId blockHeight = .ok t') :
    PrunedAmong height seed [(txId, blockHeight)] t t' := by
  unfold pruneTx at h
  split at h
  · cases h
    exact .refl
  · rename_i hold
    simp only [bind_eq_ok, pure_eq_ok] at h
    obtain ⟨v1, -, rfl⟩ := h
    split
    · exact .refl
    · refine ⟨rfl, rfl, rfl, rfl, fun id => ?_, fun _ _ => .inl⟩
      by_cases hid : txId = id
      · subst hid
        exact .inr ⟨ExtTreeMap.getElem?_erase_self, blockHeight, mem_singleton_self _,
          by simpa using hold⟩
      · exact .inl (Table.getElem?_erase_of_ne hid)

theorem eraseTip_prunedAmong :
    PrunedAmong height seed [] t { t with txsPrunableTip := t.txsPrunableTip.erase txId } :=
  ⟨rfl, rfl, rfl, rfl, fun _ => .inl rfl, fun _ _ htip =>
    .inl (Table.getElem?_erase_eq_some.1 htip).2⟩

theorem addTip_prunedAmong :
    PrunedAmong height seed [(ti.txId, ti.blockId)] t (t.addTip height ti) := by
  unfold addTip
  split
  · refine ⟨rfl, rfl, rfl, rfl, fun _ => .inl rfl, fun id b htip => ?_⟩
    rcases Table.getElem?_insert_eq_some.1 htip with ⟨rfl, rfl⟩ | ⟨-, htip⟩
    · exact .inr (mem_singleton_self _)
    · exact .inl htip
  · exact .refl

theorem pruneTip_prunedAmong : ∀ {rows : List (ℕ × ℕ)} {t : TxTables},
    pruneTip env height seed rows t = .ok t' → PrunedAmong height seed rows t t'
  | [], _, h => by
    cases h
    exact .refl
  | (txId, blockHeight) :: rest, t, h => by
    unfold pruneTip at h
    split at h
    · simp only [bind_eq_ok] at h
      obtain ⟨t₁, hprune, hrest⟩ := h
      exact (pruneTx_prunedAmong hprune).trans
        (eraseTip_prunedAmong.trans (pruneTip_prunedAmong hrest))
    · exact (pruneTip_prunedAmong h).mono (subset_cons_self _ _)

theorem pruneAll_prunedAmong : ∀ {l : List TxIndex} {t : TxTables},
    pruneAll env height seed l t = .ok t' →
      PrunedAmong height seed (l.map fun ti => (ti.txId, ti.blockId)) t t'
  | [], _, h => by
    cases h
    exact .refl
  | ti :: rest, t, h => by
    simp only [pruneAll, bind_eq_ok] at h
    obtain ⟨t₁, hprune, hrest⟩ := h
    have hfirst := addTip_prunedAmong.trans (pruneTx_prunedAmong hprune)
    exact (hfirst.trans (pruneAll_prunedAmong hrest)).mono (by simp)

theorem isV1Tx_congr (h : t'.txsPruned = t.txsPruned) (txId : ℕ) :
    t'.isV1Tx env txId = t.isV1Tx env txId := by
  rw [isV1Tx, isV1Tx, h]

theorem pruneAll_isOk : ∀ {l : List TxIndex} {t : TxTables},
    (∀ ti ∈ l, ∃ v1, t.isV1Tx env ti.txId = .ok v1) → ∃ t', pruneAll env height seed l t = .ok t'
  | [], t, _ => ⟨t, rfl⟩
  | ti :: rest, t, h => by
    obtain ⟨⟨v1, hv1⟩, hrest⟩ := forall_mem_cons.1 h
    have htip : PrunedAmong height seed _ t (t.addTip height ti) := addTip_prunedAmong
    have hfirst :
        ∃ t₁, (t.addTip height ti).pruneTx env height seed ti.txId ti.blockId = .ok t₁ := by
      unfold pruneTx
      split
      · exact ⟨_, rfl⟩
      · simp only [bind_eq_ok, isV1Tx_congr htip.txsPruned]
        exact ⟨_, v1, hv1, rfl⟩
    obtain ⟨t₁, ht₁⟩ := hfirst
    have hpruned : t₁.txsPruned = t.txsPruned :=
      (pruneTx_prunedAmong ht₁).txsPruned.trans htip.txsPruned
    obtain ⟨t', ht'⟩ := pruneAll_isOk (l := rest) (t := t₁) fun ti hti => by
      rw [isV1Tx_congr hpruned]
      exact hrest ti hti
    refine ⟨t', ?_⟩
    simp only [pruneAll, bind_eq_ok]
    exact ⟨t₁, ht₁, ht'⟩

/-- What is outside the stripe is deleted. -/
theorem pruneAll_deletes (hold : hasUnprunedBlock ti.blockId height seed = false) :
    ∀ {l : List TxIndex} {t : TxTables}, ti ∈ l → t.isV1Tx env ti.txId = .ok false →
      pruneAll env height seed l t = .ok t' → t'.txsPrunable[ti.txId]? = none
  | ti₁ :: rest, t, hmem, hv1, h => by
    simp only [pruneAll, bind_eq_ok] at h
    obtain ⟨t₁, hprune, hrest⟩ := h
    have htip : PrunedAmong height seed _ t (t.addTip height ti₁) := addTip_prunedAmong
    rcases mem_cons.1 hmem with rfl | hmem
    · refine (pruneAll_prunedAmong hrest).none_of_none ?_
      simp only [pruneTx, hold, Bool.false_eq_true, if_false, bind_eq_ok, pure_eq_ok] at hprune
      obtain ⟨v1, hv1', rfl⟩ := hprune
      rw [isV1Tx_congr htip.txsPruned, hv1] at hv1'
      cases hv1'
      exact ExtTreeMap.getElem?_erase_self
    · refine pruneAll_deletes hold hmem ?_ hrest
      rw [isV1Tx_congr ((pruneTx_prunedAmong hprune).txsPruned.trans htip.txsPruned), hv1]

end Loops

end TxTables

namespace Lmdb

variable {env : DbEnv} {db db' : Lmdb} {seed : UInt32} {mode : PruneMode} {rows : List (ℕ × ℕ)}

/-- The rows are those of stored transactions. -/
def Stored (db : Lmdb) (rows : List (ℕ × ℕ)) : Prop :=
  ∀ row ∈ rows, ∃ (h : Hash) (ti : TxIndex), db.txIndices[h]? = some ti ∧ ti.txId = row.1 ∧
    ti.blockId = row.2

theorem stored_indexRows : db.Stored (db.indexRows.map fun ti => (ti.txId, ti.blockId)) := by
  intro row hrow
  simp only [indexRows, map_map, mem_map, Prod.exists] at hrow
  obtain ⟨h, ti, hti, rfl⟩ := hrow
  exact ⟨h, ti, ExtTreeMap.mem_toList_iff_getElem?_eq_some.1 hti, rfl, rfl⟩

/-- Whatever the mode, only stored transactions are pruned. -/
theorem pruneTables_prunedAmong (hdb : db.Indexed) {tipTable : Bool} {t' : TxTables}
    (h : db.pruneTables env mode tipTable seed = .ok t') :
    ∃ rows, db.Stored rows ∧ TxTables.PrunedAmong db.height seed rows db.toTxTables t' := by
  unfold pruneTables at h
  split at h
  · simp only [bind_eq_ok, pure_eq_ok] at h
    obtain ⟨-, -, rfl⟩ := h
    exact ⟨[], by simp [Stored], .refl⟩
  · split at h
    · refine ⟨_, fun row hrow => hdb.tips row.1 row.2 ?_, pruneTip_prunedAmong h⟩
      exact ExtTreeMap.mem_toList_iff_getElem?_eq_some.1 hrow
    · exact ⟨_, stored_indexRows, pruneAll_prunedAmong h⟩

/-- What a pruning does, and the seed it leaves. -/
structure Prunes (db : Lmdb) (rows : List (ℕ × ℕ)) (seed : UInt32) (db' : Lmdb) : Prop where
  stored : db.Stored rows
  pruned : TxTables.PrunedAmong db.height seed rows db.toTxTables db'.toTxTables
  blockTables : db'.toBlockTables = db.toBlockTables
  seed_eq : ∀ b n, hasUnprunedBlock b n db'.getBlockchainPruningSeed = hasUnprunedBlock b n seed
  promised : ∀ b n, hasUnprunedBlock b n seed = true →
    hasUnprunedBlock b n db.getBlockchainPruningSeed = true

/-- Every mode of `prune_worker` only prunes outside the seed it leaves. -/
theorem pruneWorker_prunes (hdb : db.Indexed) {pruningSeed : UInt32} {randomStripe : ℕ}
    (h : db.pruneWorker env mode pruningSeed randomStripe = .ok db') :
    ∃ rows seed, Prunes db rows seed db' := by
  simp only [pruneWorker, bind_eq_ok, exists_unit] at h
  obtain ⟨-, -, h⟩ := h
  split at h
  · rename_i hnone
    have hzero : db.getBlockchainPruningSeed = 0 := by rw [getBlockchainPruningSeed, hnone]; rfl
    split at h
    · simp only [pure_eq_ok] at h
      subst h
      exact ⟨[], _, by simp [Stored], .refl, rfl, fun _ _ => rfl, fun _ _ => id⟩
    · simp only [bind_eq_ok, pure_eq_ok] at h
      obtain ⟨seed, -, t', htables, rfl⟩ := h
      obtain ⟨rows, hstored, hpruned⟩ := pruneTables_prunedAmong hdb htables
      refine ⟨rows, seed, hstored, hpruned, rfl, fun _ _ => rfl, fun b n _ => ?_⟩
      rw [hzero]
      exact hasUnprunedBlock_iff.2 (.inr (.inl rfl))
  · rename_i data hsome
    have hdata : db.getBlockchainPruningSeed = data := by rw [getBlockchainPruningSeed, hsome]; rfl
    simp only [bind_eq_ok, require_eq_ok, exists_unit, pure_eq_ok] at h
    obtain ⟨hstripe, hlog, seed, hseed, t', htables, rfl⟩ := h
    obtain ⟨hstripe', hlog'⟩ := makePruningSeed_ok hseed
    obtain ⟨rows, hstored, hpruned⟩ := pruneTables_prunedAmong hdb htables
    have hcongr : ∀ b n, hasUnprunedBlock b n data = hasUnprunedBlock b n seed := fun b n => by
      rw [hasUnprunedBlock, hstripe, hlog, ← hstripe', ← hlog', hasUnprunedBlock]
    refine ⟨rows, seed, hstored, hpruned, rfl, fun b n => ?_, fun b n hb => ?_⟩
    · rw [← hcongr, ← hdata]
      rfl
    · rwa [hdata, hcongr]

theorem Prunes.indexed (h : Prunes db rows seed db') (hdb : db.Indexed) : db'.Indexed := by
  refine ⟨?_, ?_, fun id b htip => ?_⟩
  · rw [h.pruned.txIndices, h.pruned.txsPruned]
    exact hdb.pruned
  · rw [h.pruned.txIndices]
    exact hdb.injective
  · rw [h.pruned.txIndices]
    rcases h.pruned.tips id b htip with htip | hrow
    · exact hdb.tips id b htip
    · exact h.stored (id, b) hrow

/-- A pruning leaves the promise kept. -/
theorem Prunes.hasPromised (h : Prunes db rows seed db') (hdb : db.Indexed)
    (hhas : db.HasPromised env) : db'.HasPromised env := by
  intro id ti hti hv2 hunpruned
  rw [h.pruned.txIndices] at hti
  have hheight : db'.height = db.height := congrArg (·.blocks.size) h.blockTables
  rw [h.seed_eq, hheight] at hunpruned
  have hsame : TxTables.SameAt db.toTxTables db'.toTxTables ti.txId := by
    refine ⟨by rw [h.pruned.txsPruned], ?_⟩
    rcases h.pruned.prunable ti.txId with hsame | ⟨-, b, hrow, hold⟩
    · exact hsame
    · -- the row that was deleted is one of another block, so of another transaction
      obtain ⟨id', ti', hti', hid, hb⟩ := h.stored _ hrow
      obtain rfl := hdb.injective _ _ _ _ hti' hti hid
      rw [hti'] at hti
      obtain rfl := Option.some.inj hti
      obtain rfl : ti'.blockId = b := hb
      rw [hunpruned] at hold
      cases hold
  exact hsame.present_iff.2 (hhas id ti hti (hsame.isV2_iff.1 hv2) (h.promised _ _ hunpruned))

/-- The operation leaves the promise kept. -/
def SafeOp (db : Lmdb) : Op env → Prop
  | .pruneBlockchain .. | .updatePruning => True
  | .addBlock entry => ∀ db', db.addBlock env entry = .ok db' → SafeAdd entry
  | .popBlock => db.SafePop env

theorem toOption_getD_cases {α ε : Type} (x : Except ε α) (a : α) :
    (∃ e, x = .error e ∧ x.toOption.getD a = a) ∨ ∃ b, x = .ok b ∧ x.toOption.getD a = b := by
  cases x with
  | error e => exact .inl ⟨e, rfl, rfl⟩
  | ok b => exact .inr ⟨b, rfl, rfl⟩

theorem pruneWorker_step (hdb : db.Indexed) (hhas : db.HasPromised env) (mode : PruneMode)
    (pruningSeed : UInt32) (randomStripe : ℕ) :
    ((db.pruneWorker env mode pruningSeed randomStripe).toOption.getD db).Indexed ∧
      ((db.pruneWorker env mode pruningSeed randomStripe).toOption.getD db).HasPromised env := by
  rcases toOption_getD_cases (db.pruneWorker env mode pruningSeed randomStripe) db with
    ⟨e, -, hdb'⟩ | ⟨db', h, hdb'⟩
  · rw [hdb']
    exact ⟨hdb, hhas⟩
  · rw [hdb']
    obtain ⟨rows, seed, hprunes⟩ := pruneWorker_prunes hdb h
    exact ⟨hprunes.indexed hdb, hprunes.hasPromised hdb hhas⟩

/-- One step leaves the promise kept exactly when it is safe. -/
theorem step_hasPromised_iff (hdb : db.Indexed) (hhas : db.HasPromised env) (op : Op env) :
    (db.step op).Indexed ∧ ((db.step op).HasPromised env ↔ db.SafeOp op) := by
  cases op with
  | pruneBlockchain pruningSeed randomStripe =>
    obtain ⟨hindexed, hhas'⟩ := pruneWorker_step hdb hhas .prune pruningSeed randomStripe
    exact ⟨hindexed, iff_of_true hhas' trivial⟩
  | updatePruning =>
    obtain ⟨hindexed, hhas'⟩ := pruneWorker_step hdb hhas .update 0 0
    exact ⟨hindexed, iff_of_true hhas' trivial⟩
  | addBlock entry =>
    simp only [step, SafeOp]
    cases hadd : db.addBlock env entry with
    | error e => exact ⟨hdb, iff_of_true hhas fun _ hc => by cases hc⟩
    | ok db' =>
      refine ⟨hdb.addBlock hadd, (addBlock_hasPromised_iff hdb hhas hadd).trans ?_⟩
      exact ⟨fun hsafe _ _ => hsafe, fun hsafe => hsafe db' rfl⟩
  | popBlock =>
    simp only [step]
    cases hpop : db.popBlock env with
    | error e =>
      refine ⟨hdb, iff_of_true hhas fun blk txs db' hc => ?_⟩
      rw [hpop] at hc
      cases hc
    | ok r =>
      exact ⟨(popBlock_shrinks hdb hpop).1.indexed, popBlock_hasPromised_iff hdb hhas hpop⟩

def SafeOps (db : Lmdb) (ops : List (Op env)) : Prop :=
  Runs.SafeRun (fun db op => some (step db op)) SafeOp db ops

/-- A chain that was never pruned, with the prunable data of all transactions of version 2. -/
structure Unpruned (env : DbEnv) (db : Lmdb) : Prop where
  indexed : db.Indexed
  pruningSeed : db.pruningSeed = none
  present : ∀ (h : Hash) (ti : TxIndex), db.txIndices[h]? = some ti → db.IsV2 env ti.txId →
    db.Present env ti.txId

/-- Over every run from a chain that was never pruned, what the seed promises is there in every
state, if and only if every call is safe. -/
theorem run_hasPromised_iff (env : DbEnv) (db : Lmdb) (hdb : db.Unpruned env)
    (ops : List (Op env)) :
    (∀ ops', ops' <+: ops → (db.run ops').HasPromised env) ↔ db.SafeOps ops := by
  have hstart : db.Indexed ∧ db.HasPromised env :=
    ⟨hdb.indexed, fun h ti hti hv2 _ => hdb.present h ti hti hv2⟩
  exact Runs.forall_prefix_foldl_good_iff SafeOp step
    (fun db (h : db.Indexed ∧ db.HasPromised env) => h.2)
    (fun _ op h (_ : True) => (step_hasPromised_iff h.1 h.2 op).2)
    (fun _ op h _ hgood => ⟨(step_hasPromised_iff h.1 h.2 op).1, hgood⟩)
    ops db hstart fun _ _ => trivial

def firstOps : List (Op tableEnv) := [.pruneBlockchain 385 1, .addBlock firstEntry, .updatePruning]

theorem run_hasPromised_iff_firstOps :
    noTables.SafeOps firstOps ∧
      ∀ ops', ops' <+: firstOps → (noTables.run ops').HasPromised tableEnv := by
  have hsafe : noTables.SafeOps firstOps := by
    refine ⟨trivial, fun _ _ => ⟨fun _ _ => ?_, fun _ _ => ⟨trivial, fun _ _ => trivial⟩⟩⟩
    simp only [SafeAdd, firstEntry, mem_singleton, forall_eq]
    exact fun _ _ => rfl
  have hnew : noTables.Unpruned tableEnv := ⟨noTables_indexed, rfl, by simp [noTables]⟩
  exact ⟨hsafe, (run_hasPromised_iff tableEnv noTables hnew firstOps).2 hsafe⟩

end Lmdb

/-- The block of a transaction, when only the second block has one besides the miner's. -/
def oldTxBlock (txId : ℕ) : ℕ := if txId ≤ 1 then txId else txId - 1

def oldTx (txId : ℕ) : Transaction := if txId = 2 then ringTx false else gainTx (oldTxBlock txId)

def oldBlock (height : ℕ) : Block := tableBlock height (if height = 1 then [2] else [])

/-- The base of a transaction is as many zeros as its id, and one more. Only that with the id 2 has
something to prune. -/
def oldEnv : DbEnv :=
  { tableEnv with
    txHash := fun tx =>
      match tx.vin with
      | [.gen height] => if height ≤ 1 then height else height + 1
      | _ => 2
    parseBlock := fun blob => some (oldBlock (blob.length - 1))
    parseTx := fun blob =>
      if blob.count 1 = if blob.count 0 = 3 then 1 else 0 then some (oldTx (blob.count 0 - 1))
      else none
    parseTxBase := fun blob => some (oldTx (blob.count 0 - 1)) }

def oldChain (n : ℕ) : Lmdb where
  blocks := .range (fun h => replicate (h + 1) 0) n
  blockInfo := .range (fun h => ⟨0, 0, 80, h + 1, h + 1, h + 1, 80⟩) n
  blockHeights := (Table.range (fun hash => hash - 1) (n + 1)).erase 0
  txIndices := .range (fun txId => ⟨txId, 0, oldTxBlock txId⟩) (n + 1)
  txsPruned := .range (fun txId => replicate (txId + 1) 0) (n + 1)
  txsPrunable := .range (fun txId => if txId = 2 then [1] else []) (n + 1)
  txsPrunableHash := .range (fun _ => 0) (n + 1)
  txsPrunableTip := ∅
  txOutputs := .range (fun txId => [txId]) (n + 1)
  outputTxs := .range (fun txId => ⟨txId, 0⟩) (n + 1)
  outputAmounts := DupTable.empty.put 0
    (.range (fun txId => ⟨txId, 1, 0, oldTxBlock txId, some 0⟩) (n + 1))
  spentKeys := (∅ : Table KeyImage Unit).insert 77 ()
  pruningSeed := none

namespace Lmdb

variable {n : ℕ} {db : Lmdb}

theorem oldChain_index {h : ℕ} {ti : TxIndex} :
    (oldChain n).txIndices[h]? = some ti ↔ h ≤ n ∧ ti = ⟨h, 0, oldTxBlock h⟩ := by
  rw [oldChain, Table.getElem?_range]
  by_cases hlt : h < n + 1
  · simp [hlt, Nat.le_of_lt_succ hlt, eq_comm]
  · have hnot : ¬h ≤ n := fun hle => hlt (Nat.lt_succ_of_le hle)
    simp [hlt, hnot]

theorem oldChain_unpruned : (oldChain n).Unpruned oldEnv := by
  have hpruned : ∀ id ≤ n, (oldChain n).txsPruned[id]? = some (replicate (id + 1) 0) := by
    intro id hid
    rw [oldChain, Table.getElem?_range, if_pos (Nat.lt_succ_of_le hid)]
  refine ⟨⟨fun h ti hti => ?_, fun h h' ti ti' hti hti' hid => ?_, ?_⟩, rfl, fun h ti hti _ => ?_⟩
  · obtain ⟨hle, rfl⟩ := oldChain_index.1 hti
    rw [hpruned h hle]
    rfl
  · obtain ⟨-, rfl⟩ := oldChain_index.1 hti
    obtain ⟨-, rfl⟩ := oldChain_index.1 hti'
    exact hid
  · simp [oldChain]
  · obtain ⟨hle, rfl⟩ := oldChain_index.1 hti
    refine ⟨_, if h = 2 then [1] else [], hpruned h hle, ?_, ?_⟩
    · rw [oldChain, Table.getElem?_range, if_pos (Nat.lt_succ_of_le hle)]
    · by_cases h2 : h = 2
      · subst h2
        rfl
      · have hcount : count 1 (replicate (h + 1) (0 : UInt8)) = 0 := by
          simp [count_replicate]
        simp [oldEnv, h2, hcount]

/-- The tables that pruning does not touch are those of the chain. -/
structure LikeOldChain (n : ℕ) (db : Lmdb) : Prop where
  blockTables : db.toBlockTables = (oldChain n).toBlockTables
  outputTables : db.toOutputTables = (oldChain n).toOutputTables
  txIndices : db.txIndices = (oldChain n).txIndices
  txsPruned : db.txsPruned = (oldChain n).txsPruned
  txsPrunableHash : db.txsPrunableHash = (oldChain n).txsPrunableHash
  txOutputs : db.txOutputs = (oldChain n).txOutputs

theorem height_oldChain : (oldChain n).height = n := Table.size_range _ n

theorem LikeOldChain.removeTransaction (h : LikeOldChain (n + 1) db) (hn : 2 ≤ n)
    (blocks : BlockTables) : ∃ db',
    ({ db with toBlockTables := blocks } : Lmdb).removeTransaction oldEnv (n + 1) = .ok db' := by
  have hlt : n + 1 < n + 1 + 1 := Nat.lt_succ_self _
  have hindex : db.txIndices[n + 1]? = some ⟨n + 1, 0, oldTxBlock (n + 1)⟩ := by
    rw [h.txIndices, oldChain, Table.getElem?_range, if_pos hlt]
  have hpruned : db.txsPruned[n + 1]? = some (replicate (n + 1 + 1) 0) := by
    rw [h.txsPruned, oldChain, Table.getElem?_range, if_pos hlt]
  have hhash : db.txsPrunableHash[n + 1]? = some 0 := by
    rw [h.txsPrunableHash, oldChain, Table.getElem?_range, if_pos hlt]
  have hindices : db.txOutputs[n + 1]? = some [n + 1] := by
    rw [h.txOutputs, oldChain, Table.getElem?_range, if_pos hlt]
  have hparse : oldEnv.parseTxBase (replicate (n + 1 + 1) 0) =
      some (gainTx (oldTxBlock (n + 1))) := by
    have hne : n ≠ 1 := by omega
    simp [oldEnv, oldTx, hne]
  have houtput : ∃ t, db.toOutputTables.removeOutput 0 (n + 1) = .ok t := by
    simp only [OutputTables.removeOutput, bind_eq_ok, demand_eq_ok, h.outputTables]
    refine ⟨_, ⟨n + 1, 1, 0, oldTxBlock (n + 1), some 0⟩, ?_, ⟨n + 1, 0⟩, ?_, rfl⟩
    · rw [oldChain, DupTable.dups_put_self, Table.getElem?_range, if_pos hlt]
    · rw [oldChain, Table.getElem?_range, if_pos hlt]
  obtain ⟨t, ht⟩ := houtput
  have houtputs : OutputTables.removeOutputs (gainTx (oldTxBlock (n + 1))).isCoinbase [n + 1] 0
      (gainTx (oldTxBlock (n + 1))).vout db.toOutputTables = .ok t := by
    simp only [gainTx, OutputTables.removeOutputs, bind_eq_ok]
    exact ⟨_, rfl, n + 1, rfl, ht⟩
  have hremoveHash :
      db.toTxTables.removePrunableHash (n + 1) (gainTx (oldTxBlock (n + 1))).version =
      .ok (db.txsPrunableHash.erase (n + 1)) := by
    simp only [removePrunableHash, gainTx, Nat.one_lt_two, if_true, bind_eq_ok, demand_eq_ok,
      pure_eq_ok, and_true]
    exact ⟨_, hhash⟩
  have hne : [n + 1] = [] → (gainTx (oldTxBlock (n + 1))).vout = [] := fun h =>
    absurd h (cons_ne_nil _ _)
  exact ⟨_, removeTransaction_eq_ok hindex hpruned hparse hremoveHash hindices hne houtputs⟩

theorem LikeOldChain.popBlock (h : LikeOldChain (n + 1) db) (hn : 2 ≤ n) :
    ∃ db', db.popBlock oldEnv = .ok (oldBlock n, [], db') ∧
      db'.txIndices = db.txIndices.erase (n + 1) := by
  have hlt : n < n + 1 := Nat.lt_succ_self n
  have hsize : db.blocks.size = n + 1 := by
    rw [h.blockTables]
    exact Table.size_range _ _
  have htop : db.getTopBlock oldEnv = .ok (some (oldBlock n)) := by
    rw [BlockTables.getTopBlock, hsize, if_neg (Nat.succ_ne_zero _), Nat.add_sub_cancel]
    simp only [bind_eq_ok, demand_eq_ok]
    refine ⟨replicate (n + 1) 0, ?_, oldBlock n, by simp [oldEnv], rfl⟩
    rw [h.blockTables, oldChain, Table.getElem?_range, if_pos hlt]
  have hremove : ∃ blocks, db.removeBlock = .ok blocks := by
    simp only [BlockTables.removeBlock, hsize, Nat.add_sub_cancel, bind_eq_ok, require_eq_ok,
      exists_unit, demand_eq_ok]
    refine ⟨_, Nat.succ_ne_zero n, ⟨0, 0, 80, n + 1, n + 1, n + 1, 80⟩, ?_, n, ?_, rfl⟩
    · rw [h.blockTables, oldChain, Table.getElem?_range, if_pos hlt]
    · rw [h.blockTables, oldChain, Table.getElem?_erase_of_ne (Nat.succ_ne_zero n).symm,
        Table.getElem?_range, if_pos (Nat.lt_succ_self _), Nat.succ_sub_one]
  obtain ⟨blocks, hblocks⟩ := hremove
  obtain ⟨db', hrem⟩ := h.removeTransaction hn blocks
  have hhash : oldEnv.txHash (oldBlock n).minerTx = n + 1 := by
    have hne : ¬n ≤ 1 := by omega
    simp [oldEnv, oldBlock, tableBlock, gainTx, hne]
  have hnone : (oldBlock n).txHashes = [] := by
    have hne : n ≠ 1 := by omega
    simp [oldBlock, tableBlock, hne]
  refine ⟨db', ?_, ?_⟩
  · simp only [Lmdb.popBlock, bind_eq_ok, Prod.exists, htop, hblocks]
    refine ⟨_, rfl, _, rfl, oldBlock n, rfl, [], _, ?_, db', hhash ▸ hrem, rfl⟩
    rw [hnone]
    rfl
  · obtain ⟨ti, tx, hremoves⟩ := removeTransaction_ok hrem
    exact hremoves.txIndices

theorem oldChain_isV1Tx {txId : ℕ} (h : txId ≤ n) :
    (oldChain n).isV1Tx oldEnv txId = .ok false := by
  have hpruned : (oldChain n).txsPruned[txId]? = some (replicate (txId + 1) 0) := by
    rw [oldChain, Table.getElem?_range, if_pos (Nat.lt_succ_of_le h)]
  rw [isV1Tx, hpruned]
  rfl

theorem oldChain_pruneBlockchain (hn : 1 + cryptonotePruningTipBlocks < n) : ∃ db,
    (oldChain n).pruneBlockchain oldEnv 385 1 = .ok db ∧ LikeOldChain n db ∧
      db.txsPrunable[2]? = none := by
  have hrow : ∀ ti ∈ (oldChain n).indexRows, ti.txId ≤ n := by
    intro ti hti
    simp only [indexRows, mem_map, Prod.exists] at hti
    obtain ⟨h, ti, hti, rfl⟩ := hti
    obtain ⟨hle, rfl⟩ := oldChain_index.1 (ExtTreeMap.mem_toList_iff_getElem?_eq_some.1 hti)
    exact hle
  have hloop : ∃ t, pruneAll oldEnv n 385 (oldChain n).indexRows (oldChain n).toTxTables =
      .ok t := pruneAll_isOk fun ti hti => ⟨false, oldChain_isV1Tx (hrow ti hti)⟩
  obtain ⟨t, ht⟩ := hloop
  have hsame := pruneAll_prunedAmong ht
  have hle : 2 ≤ n := by
    omega
  have hmem : (⟨2, 0, 1⟩ : TxIndex) ∈ (oldChain n).indexRows := by
    refine mem_map.2 ⟨(2, ⟨2, 0, 1⟩), ?_, rfl⟩
    exact ExtTreeMap.mem_toList_iff_getElem?_eq_some.2 (oldChain_index.2 ⟨hle, rfl⟩)
  have hold : hasUnprunedBlock 1 n 385 = false := by
    rw [Bool.eq_false_iff, Ne, hasUnprunedBlock_iff, not_or]
    refine ⟨Nat.not_le.2 hn, ?_⟩
    unfold InStripe
    decide
  have hworker : (oldChain n).pruneBlockchain oldEnv 385 1 =
      .ok { oldChain n with toTxTables := t, pruningSeed := some 385 } := by
    have hseed : (oldChain n).pruningSeed = none := rfl
    have htables : (oldChain n).pruneTables oldEnv .prune false 385 = .ok t := by
      rw [← ht]
      exact congrArg (pruneAll oldEnv · 385 _ _) height_oldChain
    simp only [pruneBlockchain, pruneWorker, bind_eq_ok, exists_unit, hseed, ne_eq,
      not_true_eq_false, if_false]
    exact ⟨by decide, by decide, 385, rfl, t, htables, rfl⟩
  exact ⟨_, hworker, ⟨rfl, rfl, hsame.txIndices, hsame.txsPruned, hsame.txsPrunableHash,
    hsame.txOutputs⟩, pruneAll_deletes hold hmem (oldChain_isV1Tx hle) ht⟩

def oldOps : List (Op oldEnv) := [.pruneBlockchain 385 1, .popBlock]

/-- A chain that is pruned and then loses its top block promises what it has deleted. -/
theorem oldChain_run_not_hasPromised (hn : n = 1 + cryptonotePruningTipBlocks) :
    ¬((oldChain (n + 1)).run oldOps).HasPromised oldEnv := by
  intro hhas
  obtain ⟨db₁, hprune, hlike, hgone⟩ := oldChain_pruneBlockchain (Nat.lt_succ_of_le hn.ge)
  obtain ⟨db, hpop, hindices⟩ := hlike.popBlock (hn ▸ by decide)
  have hrun : (oldChain (n + 1)).run oldOps = db := by
    simp only [run, oldOps, foldl_cons, foldl_nil, step, hprune, Except.toOption,
      Option.getD_some, hpop, Except.map]
  rw [hrun] at hhas
  have hle : 2 < n + 1 := hn ▸ by decide
  have hti : db.txIndices[2]? = some ⟨2, 0, 1⟩ := by
    rw [hindices, Table.getElem?_erase_of_ne hle.ne', hlike.txIndices]
    exact oldChain_index.2 ⟨hle.le, rfl⟩
  obtain ⟨rows, seed, hprunes⟩ := pruneWorker_prunes oldChain_unpruned.indexed hprune
  have hindexed := hprunes.indexed oldChain_unpruned.indexed
  obtain ⟨hshrinks, hheight⟩ := popBlock_shrinks hindexed hpop
  have hsame := hshrinks.sameAt 2 _ hti
  have hunpruned : hasUnprunedBlock 1 db.height db.getBlockchainPruningSeed = true := by
    refine hasUnprunedBlock_iff.2 (.inl ?_)
    rw [height, hlike.blockTables, ← height, height_oldChain] at hheight
    omega
  have hv2 : db.IsV2 oldEnv 2 := by
    refine hsame.isV2_iff.2 ⟨replicate 3 0, ?_, rfl⟩
    rw [hlike.txsPruned, oldChain, Table.getElem?_range, if_pos (Nat.lt_succ_of_lt hle)]
  obtain ⟨-, prunable, -, hprunable, -⟩ := hhas 2 _ hti hv2 hunpruned
  rw [hsame.prunable, hgone] at hprunable
  cases hprunable

theorem run_oldOps_not_hasPromised :
    (oldChain 5502).Unpruned oldEnv ∧ ¬((oldChain 5502).run oldOps).HasPromised oldEnv :=
  ⟨oldChain_unpruned, oldChain_run_not_hasPromised rfl⟩

end Lmdb

end Nerva
