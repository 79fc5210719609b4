import Mathlib.Algebra.Order.BigOperators.Group.List
import Mathlib.Algebra.Order.Ring.Nat
import Mathlib.Data.List.Nodup
import Nerva.Proofs.TxRows

/-!
# Popping undoes adding

A block that was just added is popped again: its rows first, then its transactions with the last one
first, then the miner's. This restores every table when the transactions can each be removed, and
only then.
-/

namespace Nerva

open Checks Std List BlockEntry

namespace Lmdb

variable {env : DbEnv} {db db' : Lmdb} {tx : Transaction}

section Lists

variable {h : Hash} {e : TxEntry env}

theorem addTransactions_cons {rest : List (Hash × TxEntry env)} :
    db.addTransactions env ((h, e) :: rest) = .ok db' ↔
      ∃ db₁, db.addTransaction env e.tx e.blob h = .ok db₁ ∧
        db₁.addTransactions env rest = .ok db' := by
  rw [addTransactions, bind_eq_ok]

theorem Indexed.congr (h : db.Indexed) (htxs : db'.toTxTables = db.toTxTables) : db'.Indexed := by
  refine ⟨?_, ?_, ?_⟩
  all_goals rw [htxs]
  · exact h.pruned
  · exact h.injective
  · exact h.tips

theorem Indexed.addTransactions : ∀ {l : List (Hash × TxEntry env)} {db : Lmdb}, db.Indexed →
    db.addTransactions env l = .ok db' → db'.Indexed
  | [], _, hdb, h => by
    cases h
    exact hdb
  | (txHash, e) :: rest, db, hdb, h => by
    obtain ⟨db₁, hadd, hrest⟩ := addTransactions_cons.1 h
    rcases addTransaction_cases hadd with hadd | ⟨-, keys, rfl⟩
    · exact (hadd.indexed hdb).addTransactions hrest
    · have h₁ : ({ db with spentKeys := keys } : Lmdb).Indexed := hdb.congr rfl
      exact h₁.addTransactions hrest

theorem size_addTransactions : ∀ {l : List (Hash × TxEntry env)} {db : Lmdb},
    db.addTransactions env l = .ok db' →
      db'.txIndices.size = db.txIndices.size + l.countP (·.2.tx.vin.all TxIn.supported)
  | [], _, h => by
    cases h
    rfl
  | (txHash, e) :: rest, db, h => by
    obtain ⟨db₁, hadd, hrest⟩ := addTransactions_cons.1 h
    rw [size_addTransactions hrest, countP_cons]
    rcases addTransaction_cases hadd with hadd | ⟨hnot, keys, rfl⟩
    · rw [hadd.size, if_pos hadd.supported]
      omega
    · simp [hnot]

/-- What adding a list of transactions leaves. -/
structure AllAdded (db : Lmdb) (l : List (Hash × TxEntry env)) (db' : Lmdb) : Prop where
  indexed : db'.Indexed
  blockTables : db'.toBlockTables = db.toBlockTables
  mono : ∀ (h : Hash) (e : TxEntry env), db.Holds h e → db'.Holds h e
  fresh : ∀ x ∈ l, db.txIndices[x.1]? = none
  holds : ∀ x ∈ l, db'.Holds x.1 x.2
  nodup : (l.map Prod.fst).Nodup
  zeros : db'.toOutputTables.zeros =
    db.toOutputTables.zeros + (l.map fun x => x.2.tx.zerosAdded).sum

/-- Transactions with supported inputs are all stored. -/
theorem addTransactions_ok : ∀ {l : List (Hash × TxEntry env)} {db : Lmdb}, db.Indexed →
    db.addTransactions env l = .ok db' → (∀ x ∈ l, x.2.tx.vin.all TxIn.supported = true) →
      AllAdded db l db'
  | [], db, hdb, h, _ => by
    cases h
    exact ⟨hdb, rfl, fun _ _ => id, by simp, by simp, by simp, rfl⟩
  | (txHash, e) :: rest, db, hdb, h, hall => by
    obtain ⟨db₁, hadd, hrest⟩ := addTransactions_cons.1 h
    obtain ⟨hsupported, hall⟩ := forall_mem_cons.1 hall
    rcases addTransaction_cases hadd with hadd | ⟨hnot, -⟩
    · have ih := addTransactions_ok (hadd.indexed hdb) hrest hall
      have hself := hadd.holds
      have hne : ∀ x ∈ rest, x.1 ≠ txHash := by
        rintro x hx rfl
        obtain ⟨ti, hti, -⟩ := hself
        rw [ih.fresh x hx] at hti
        cases hti
      refine ⟨ih.indexed, ih.blockTables.trans hadd.blockTables, ?_, ?_, ?_, ?_, ?_⟩
      · exact fun h' e' hold => ih.mono h' e' (hadd.holds_of_holds hdb hold)
      · refine forall_mem_cons.2 ⟨hadd.freshIndex, fun x hx => ?_⟩
        have hfresh := ih.fresh x hx
        rwa [hadd.txIndices, Table.getElem?_insert_of_ne (hne x hx).symm] at hfresh
      · exact forall_mem_cons.2 ⟨ih.mono txHash e hself, ih.holds⟩
      · refine nodup_cons.2 ⟨fun hmem => ?_, ih.nodup⟩
        obtain ⟨x, hx, heq⟩ := mem_map.1 hmem
        exact hne x hx heq
      · rw [ih.zeros, hadd.zeros, map_cons, sum_cons, Nat.add_assoc]
    · rw [hsupported] at hnot
      cases hnot

theorem popTransactions_cons {hs : List Hash} {txs : List Transaction} :
    db.popTransactions env (h :: hs) = .ok (txs, db') ↔ ∃ tx db₁ rest,
      db.getTxOrPruned env h = .ok tx ∧ db.removeTransaction env h = .ok db₁ ∧
        db₁.popTransactions env hs = .ok (rest, db') ∧ txs = tx :: rest := by
  simp only [popTransactions, bind_eq_ok, pure_eq_ok, Prod.exists, Prod.mk.injEq]
  constructor
  · rintro ⟨tx, htx, db₁, hrem, rest, _, hrest, rfl, rfl⟩
    exact ⟨tx, db₁, rest, htx, hrem, hrest, rfl⟩
  · rintro ⟨tx, db₁, rest, htx, hrem, hrest, rfl⟩
    exact ⟨tx, htx, db₁, hrem, rest, db', hrest, rfl, rfl⟩

theorem size_popTransactions : ∀ {hs : List Hash} {db : Lmdb} {txs : List Transaction},
    db.popTransactions env hs = .ok (txs, db') →
      db.txIndices.size = db'.txIndices.size + hs.length
  | [], _, _, h => by
    cases h
    rfl
  | h :: hs, db, _, hpop => by
    obtain ⟨tx, db₁, rest, -, hrem, hrest, rfl⟩ := popTransactions_cons.1 hpop
    obtain ⟨ti, tx, hrem⟩ := removeTransaction_ok hrem
    rw [hrem.size, size_popTransactions hrest, length_cons, Nat.add_assoc]

theorem Holds.getTxOrPruned (hold : db.Holds h e) :
    db.getTxOrPruned env h = .ok tx ↔ env.parseTx e.blob = some tx := by
  obtain ⟨ti, hti, hpruned, hprunable⟩ := hold
  have hblob : db.getTxBlob h = some e.blob := by
    simp only [TxTables.getTxBlob, hti, Option.bind_some, hpruned, hprunable, Option.map_some,
      take_append_drop]
  rw [TxTables.getTxOrPruned, hblob]
  exact demand_eq_ok

/-- What popping a list of transactions leaves and returns. -/
structure AllPopped (db : Lmdb) (l : List (Hash × TxEntry env)) (txs : List Transaction)
    (db' : Lmdb) : Prop where
  indexed : db'.Indexed
  holds : ∀ (h : Hash) (e : TxEntry env), h ∉ l.map Prod.fst → db.Holds h e → db'.Holds h e
  reads : l.map (fun x => env.parseTx x.2.blob) = txs.map some
  zeros : db.toOutputTables.zeros =
    db'.toOutputTables.zeros + (l.map fun x => x.2.tx.zerosRemoved).sum

/-- Stored transactions are returned as their blobs parse. -/
theorem popTransactions_ok : ∀ {l : List (Hash × TxEntry env)} {db : Lmdb} {txs : List Transaction},
    db.Indexed → (l.map Prod.fst).Nodup → (∀ x ∈ l, db.Holds x.1 x.2) →
      db.popTransactions env (l.map Prod.fst) = .ok (txs, db') → AllPopped db l txs db'
  | [], db, _, hdb, _, _, h => by
    cases h
    exact ⟨hdb, fun _ _ _ => id, rfl, rfl⟩
  | (h, e) :: rest, db, _, hdb, hnodup, hall, hpop => by
    obtain ⟨tx, db₁, txs, htx, hrem, hrest, rfl⟩ := popTransactions_cons.1 hpop
    obtain ⟨hnot, hnodup⟩ := nodup_cons.1 hnodup
    obtain ⟨hself, hall⟩ := forall_mem_cons.1 hall
    obtain ⟨ti, base, hrem⟩ := removeTransaction_ok hrem
    have hne : ∀ x ∈ rest, h ≠ x.1 := by
      rintro x hx rfl
      exact hnot (mem_map.2 ⟨x, hx, rfl⟩)
    have ih := popTransactions_ok (hrem.indexed hdb) hnodup
      (fun x hx => hrem.holds_of_ne hdb (hne x hx) (hall x hx)) hrest
    refine ⟨ih.indexed, fun h' e' hmem hold => ?_, ?_, ?_⟩
    · obtain ⟨hne', hmem⟩ := not_or.1 (mem_cons.not.1 hmem)
      exact ih.holds h' e' hmem (hrem.holds_of_ne hdb (Ne.symm hne') hold)
    · rw [map_cons, map_cons, ih.reads, hself.getTxOrPruned.1 htx]
    · rw [hrem.zeros, ih.zeros, hrem.zerosRemoved hself, map_cons, sum_cons]
      omega

theorem popTransactions_append {hs' : List Hash} {txs' : List Transaction} {db'' : Lmdb} :
    ∀ {hs : List Hash} {db : Lmdb} {txs : List Transaction},
    db.popTransactions env hs = .ok (txs, db') → db'.popTransactions env hs' = .ok (txs', db'') →
      db.popTransactions env (hs ++ hs') = .ok (txs ++ txs', db'')
  | [], _, _, h, h' => by
    cases h
    exact h'
  | h :: hs, db, _, hpop, h' => by
    obtain ⟨tx, db₁, rest, htx, hrem, hrest, rfl⟩ := popTransactions_cons.1 hpop
    exact popTransactions_cons.2
      ⟨tx, db₁, rest ++ txs', htx, hrem, popTransactions_append hrest h', rfl⟩

/-- Popping undoes adding, in the opposite order. -/
theorem popTransactions_addTransactions :
    ∀ {l : List (Hash × TxEntry env)} {db : Lmdb}, db.Indexed →
    (∀ x ∈ l, x.2.tx.vin.all TxIn.supported = true ∧ x.2.tx.AmountsKept ∧
      env.parseTx x.2.blob = some x.2.tx) →
    db.addTransactions env l = .ok db' →
      db'.popTransactions env (l.map Prod.fst).reverse = .ok ((l.map (·.2.tx)).reverse, db)
  | [], _, _, _, h => by
    cases h
    rfl
  | (h, e) :: rest, db, hdb, hall, hadd => by
    obtain ⟨db₁, hadd, hrest⟩ := addTransactions_cons.1 hadd
    obtain ⟨⟨hsupported, hkept, hparse⟩, hall⟩ := forall_mem_cons.1 hall
    rcases addTransaction_cases hadd with hadd | ⟨hnot, -⟩
    · have ih := popTransactions_addTransactions (hadd.indexed hdb) hall hrest
      rw [map_cons, map_cons, reverse_cons, reverse_cons]
      refine popTransactions_append ih (popTransactions_cons.2 ⟨e.tx, db, [], ?_, ?_, rfl, rfl⟩)
      · exact hadd.holds.getTxOrPruned.2 hparse
      · exact hadd.removeTransaction hdb e.holdsBase hkept
    · rw [hsupported] at hnot
      cases hnot

end Lists

end Lmdb

section Blocks

variable {env : DbEnv} {t t' : BlockTables} {entry : BlockEntry env} {n : ℕ}

variable (h : t.addBlock env entry n (env.blockHash entry.blk) = .ok t')

include h

theorem BlockTables.addBlock_ok :
    ∃ bi : MdbBlockInfo, bi.hash = env.blockHash entry.blk ∧
      t.blocks[t.blocks.size]? = none ∧ t.blockInfo[t.blocks.size]? = none ∧
      t.blockHeights[bi.hash]? = none ∧
      t' = ⟨t.blocks.insert t.blocks.size (env.blockToBlob entry.blk),
        t.blockInfo.insert t.blocks.size bi, t.blockHeights.insert bi.hash t.blocks.size⟩ := by
  simp only [addBlock, bind_eq_ok, require_eq_ok, exists_unit, demand_eq_ok, pure_eq_ok] at h
  obtain ⟨hheights, -, blocks, hblocks, rct, -, blockInfo, hinfo, rfl⟩ := h
  obtain ⟨hfresh, rfl⟩ := Table.append_eq_some hblocks
  obtain ⟨hfresh', rfl⟩ := Table.append_eq_some hinfo
  exact ⟨_, rfl, hfresh, hfresh', hheights, rfl⟩

/-- Removing the block just added restores the tables. -/
theorem BlockTables.removeBlock_addBlock :
    t'.removeBlock = .ok t ∧ t'.getTopBlock env = .ok (some entry.blk) := by
  obtain ⟨bi, -, hblocks, hinfo, hheights, rfl⟩ := addBlock_ok h
  have hsize : (t.blocks.insert t.blocks.size (env.blockToBlob entry.blk)).size =
      t.blocks.size + 1 := Table.size_insert_of_none hblocks
  constructor
  · simp only [removeBlock, bind_eq_ok, require_eq_ok, exists_unit, demand_eq_ok, pure_eq_ok, hsize,
      Nat.add_sub_cancel]
    refine ⟨Nat.succ_ne_zero _, bi, ExtTreeMap.getElem?_insert_self, _,
      ExtTreeMap.getElem?_insert_self, ?_⟩
    rw [Table.erase_insert hblocks, Table.erase_insert hinfo, Table.erase_insert hheights]
  · rw [getTopBlock, hsize, if_neg (Nat.succ_ne_zero _)]
    simp only [bind_eq_ok, demand_eq_ok]
    exact ⟨_, ExtTreeMap.getElem?_insert_self, _, entry.parses, rfl⟩

end Blocks

variable {env : DbEnv} {entry : BlockEntry env}

theorem BlockEntry.map_fst_hashed (h : entry.blk.txHashes.length = entry.txs.length) :
    entry.hashed.map Prod.fst = entry.blk.txHashes :=
  map_fst_zip (Nat.le_of_eq h)

theorem BlockEntry.map_snd_hashed (h : entry.blk.txHashes.length = entry.txs.length) :
    entry.hashed.map Prod.snd = entry.txs :=
  map_snd_zip (Nat.le_of_eq h.symm)

def BlockEntry.allHashed {env : DbEnv} (entry : BlockEntry env) : List (Hash × TxEntry env) :=
  (env.txHash entry.blk.minerTx, entry.minerEntry) :: entry.hashed

theorem BlockEntry.map_snd_allHashed (h : entry.blk.txHashes.length = entry.txs.length) :
    entry.allHashed.map Prod.snd = entry.minerEntry :: entry.txs := by
  rw [allHashed, map_cons, map_snd_hashed h]

/-- A block that can be popped again: its transactions have inputs of known types and keep their
amounts, and those besides the miner's come whole. -/
structure BlockEntry.Poppable {env : DbEnv} (entry : BlockEntry env) : Prop where
  supported : ∀ e ∈ entry.minerEntry :: entry.txs, e.tx.vin.all TxIn.supported = true
  amountsKept : ∀ e ∈ entry.minerEntry :: entry.txs, e.tx.AmountsKept
  whole : ∀ e ∈ entry.txs, env.parseTx e.blob = some e.tx

namespace Lmdb

variable {env : DbEnv} {db db' : Lmdb} {entry : BlockEntry env}

theorem addBlock_ok (h : db.addBlock env entry = .ok db') :
    entry.blk.txHashes.length = entry.txs.length ∧ ∃ db₁,
      db.addTransactions env entry.allHashed = .ok db₁ ∧
      ∃ blocks, db₁.toBlockTables.addBlock env entry entry.numRctOuts (env.blockHash entry.blk) =
        .ok blocks ∧ db' = { db₁ with toBlockTables := blocks } := by
  simp only [addBlock, bind_eq_ok, require_eq_ok, exists_unit, pure_eq_ok] at h
  obtain ⟨hlen, db₁, hminer, db₂, htxs, blocks, hblocks, rfl⟩ := h
  exact ⟨hlen, db₂, addTransactions_cons.2 ⟨db₁, hminer, htxs⟩, blocks, hblocks, rfl⟩

theorem popBlock_of_addBlock {db₁ r : Lmdb} {blocks : BlockTables} {blk : Block}
    {txs : List Transaction}
    (h : db₁.toBlockTables.addBlock env entry entry.numRctOuts (env.blockHash entry.blk) =
      .ok blocks) :
    ({ db₁ with toBlockTables := blocks } : Lmdb).popBlock env = .ok (blk, txs, r) ↔
      blk = entry.blk ∧ ∃ r₁, db₁.popTransactions env entry.blk.txHashes.reverse = .ok (txs, r₁) ∧
        r₁.removeTransaction env (env.txHash entry.blk.minerTx) = .ok r := by
  obtain ⟨hremove, htop⟩ := BlockTables.removeBlock_addBlock h
  simp only [popBlock, bind_eq_ok, pure_eq_ok, Prod.exists, Prod.mk.injEq, htop,
    hremove, Except.ok.injEq]
  constructor
  · rintro ⟨_, rfl, _, rfl, blk', hblk', txs', r₁, hpop, r', hr', rfl, rfl, rfl⟩
    cases hblk'
    exact ⟨rfl, r₁, hpop, hr'⟩
  · rintro ⟨rfl, r₁, hpop, hr⟩
    exact ⟨_, rfl, _, rfl, entry.blk, rfl, txs, r₁, hpop, r, hr, rfl, rfl, rfl⟩

section Pop

variable {entry : BlockEntry env} {db₁ r₁ : Lmdb} {l : List (Hash × TxEntry env)}

/-- A block that can be popped gives its transactions back. -/
theorem popTransactions_of_poppable (hdb : db.Indexed) (h : entry.Poppable)
    (hlen : entry.blk.txHashes.length = entry.txs.length)
    (hadd : db.addTransactions env entry.allHashed = .ok db₁) :
    ∃ r₁, db₁.popTransactions env entry.blk.txHashes.reverse =
        .ok ((entry.txs.map (·.tx)).reverse, r₁) ∧
      r₁.removeTransaction env (env.txHash entry.blk.minerTx) = .ok db := by
  obtain ⟨db₀, hminer, hrest⟩ := addTransactions_cons.1 hadd
  rcases addTransaction_cases hminer with hminer | ⟨hnot, -⟩
  · refine ⟨db₀, ?_, ?_⟩
    · have hpop := popTransactions_addTransactions (hminer.indexed hdb) (fun x hx => ?_) hrest
      · rw [map_fst_hashed hlen] at hpop
        rwa [← map_snd_hashed hlen, map_map]
      · have hmem : x.2 ∈ entry.txs := map_snd_hashed hlen ▸ mem_map_of_mem hx
        have hmem' := mem_cons_of_mem entry.minerEntry hmem
        exact ⟨h.supported _ hmem', h.amountsKept _ hmem', h.whole _ hmem⟩
    · exact hminer.removeTransaction hdb entry.minerEntry.holdsBase
        (h.amountsKept _ mem_cons_self)
  · rw [h.supported _ mem_cons_self] at hnot
    cases hnot

/-- If the tables are restored, no transaction was left out. -/
theorem supported_of_restored {hs : List Hash} {txHash : Hash} {txs : List Transaction}
    (hlen : l.length = hs.length + 1) (hadd : db.addTransactions env l = .ok db₁)
    (hpop : db₁.popTransactions env hs = .ok (txs, r₁))
    (hrem : r₁.removeTransaction env txHash = .ok db) :
    ∀ x ∈ l, x.2.tx.vin.all TxIn.supported = true := by
  obtain ⟨ti, tx, hrem⟩ := removeTransaction_ok hrem
  have h₁ := size_addTransactions hadd
  have h₂ := size_popTransactions hpop
  have h₃ := hrem.size
  exact countP_eq_length.1 (by omega)

theorem amountsKept_of_zeros
    (h : (l.map fun x => x.2.tx.zerosRemoved).sum = (l.map fun x => x.2.tx.zerosAdded).sum) :
    ∀ x ∈ l, x.2.tx.AmountsKept := by
  intro x hx
  refine Transaction.amountsKept_of_zeros_eq ?_
  by_contra hne
  have hlt : x.2.tx.zerosRemoved < x.2.tx.zerosAdded :=
    Nat.lt_of_le_of_ne (Transaction.zerosRemoved_le _) hne
  have hsum := sum_lt_sum (fun x : Hash × TxEntry env => x.2.tx.zerosRemoved)
    (fun x => x.2.tx.zerosAdded) (fun y _ => Transaction.zerosRemoved_le y.2.tx) ⟨x, hx, hlt⟩
  omega

/-- If the tables are restored and the transactions returned, the block can be popped. -/
theorem poppable_of_restored (hdb : db.Indexed)
    (hlen : entry.blk.txHashes.length = entry.txs.length)
    (hadd : db.addTransactions env entry.allHashed = .ok db₁)
    (hpop : db₁.popTransactions env entry.blk.txHashes.reverse =
      .ok ((entry.txs.map (·.tx)).reverse, r₁))
    (hrem : r₁.removeTransaction env (env.txHash entry.blk.minerTx) = .ok db) : entry.Poppable := by
  have hfst := map_fst_hashed hlen
  have hsnd := map_snd_hashed hlen
  have hsupported := supported_of_restored (by simp [← hfst, allHashed]) hadd hpop hrem
  have hadded := addTransactions_ok hdb hadd hsupported
  obtain ⟨hnot, hnodup⟩ := nodup_cons.1 hadded.nodup
  obtain ⟨hminer, hholds⟩ := forall_mem_cons.1 hadded.holds
  rw [← hfst, ← map_reverse] at hpop
  have hpopped := popTransactions_ok hadded.indexed
    (by rwa [map_reverse, nodup_reverse]) (fun x hx => hholds x (mem_reverse.1 hx)) hpop
  obtain ⟨ti, base, hrem⟩ := removeTransaction_ok hrem
  have hminer' := hpopped.holds _ _ (by rwa [map_reverse, mem_reverse]) hminer
  -- the rows under amount 0 that were added and removed
  have hzeros : (entry.allHashed.map fun x => x.2.tx.zerosRemoved).sum =
      (entry.allHashed.map fun x => x.2.tx.zerosAdded).sum := by
    have h₁ := hadded.zeros
    have h₂ := hpopped.zeros
    have h₃ := hrem.zeros
    rw [hrem.zerosRemoved hminer'] at h₃
    rw [map_reverse, sum_reverse] at h₂
    rw [allHashed] at h₁ ⊢
    rw [map_cons, sum_cons]
    omega
  have hof : ∀ {p : TxEntry env → Prop}, (∀ x ∈ entry.allHashed, p x.2) →
      ∀ e ∈ entry.minerEntry :: entry.txs, p e := by
    intro p hp e he
    rw [← map_snd_allHashed hlen] at he
    obtain ⟨x, hx, rfl⟩ := mem_map.1 he
    exact hp x hx
  refine ⟨hof hsupported, hof (amountsKept_of_zeros hzeros), fun e he => ?_⟩
  have hreads := hpopped.reads
  rw [map_reverse, map_reverse, ← hsnd, map_map, map_map, reverse_inj,
    map_inj_left] at hreads
  rw [← hsnd] at he
  obtain ⟨x, hx, rfl⟩ := mem_map.1 he
  exact hreads x hx

end Pop

/-- Popping a block that was just added returns it with its transactions, the last one first, and
restores every table, if and only if the block can be popped. -/
theorem popBlock_addBlock_iff (env : DbEnv) (db : Lmdb) (hdb : db.Indexed) (entry : BlockEntry env)
    (db' : Lmdb) (hadd : db.addBlock env entry = .ok db') :
    db'.popBlock env = .ok (entry.blk, (entry.txs.map (·.tx)).reverse, db) ↔ entry.Poppable := by
  obtain ⟨hlen, db₁, htxs, blocks, hblocks, rfl⟩ := addBlock_ok hadd
  rw [popBlock_of_addBlock hblocks]
  constructor
  · rintro ⟨-, r₁, hpop, hrem⟩
    exact poppable_of_restored hdb hlen htxs hpop hrem
  · intro h
    exact ⟨rfl, popTransactions_of_poppable hdb h hlen htxs⟩

/-- Adding a block keeps the index. -/
theorem Indexed.addBlock (hdb : db.Indexed) (h : db.addBlock env entry = .ok db') :
    db'.Indexed := by
  obtain ⟨-, db₁, htxs, blocks, -, rfl⟩ := addBlock_ok h
  exact (hdb.addTransactions htxs).congr rfl

/-- `pop_block`, that many times. -/
def popBlocks (env : DbEnv) : ℕ → Lmdb → Except DbError (List (Block × List Transaction) × Lmdb)
  | 0, db => .ok ([], db)
  | n + 1, db => do
    let (popped, db) ← popBlocks env n db
    let (blk, txs, db) ← db.popBlock env
    return (popped ++ [(blk, txs)], db)

/-- However many blocks are added, popping as many gives them back in reverse and restores every
table. -/
theorem popBlocks_addBlocks : ∀ {es : List (BlockEntry env)} {db : Lmdb}, db.Indexed →
    (∀ e ∈ es, e.Poppable) → es.foldlM (addBlock env) db = .ok db' →
    popBlocks env es.length db' =
      .ok ((es.map fun e => (e.blk, (e.txs.map (·.tx)).reverse)).reverse, db)
  | [], _, _, _, h => by
    cases h
    rfl
  | e :: es, db, hdb, hall, h => by
    rw [foldlM_cons, bind_eq_ok] at h
    obtain ⟨db₁, hadd, hrest⟩ := h
    obtain ⟨he, hes⟩ := forall_mem_cons.mp hall
    have hpopped := popBlocks_addBlocks (hdb.addBlock hadd) hes hrest
    have hpop : db₁.popBlock env = .ok (e.blk, (e.txs.map (·.tx)).reverse, db) := by
      obtain ⟨hlen, db₂, htxs, blocks, hblocks, rfl⟩ := addBlock_ok hadd
      exact (popBlock_of_addBlock hblocks).mpr ⟨rfl, popTransactions_of_poppable hdb he hlen htxs⟩
    rw [length_cons, popBlocks, bind_eq_ok]
    exact ⟨_, hpopped, bind_eq_ok.mpr ⟨_, hpop, by rw [map_cons, reverse_cons]; rfl⟩⟩

end Lmdb

def gainTx (height : ℕ) : Transaction where
  version := 2
  unlockTime := 0
  vin := [.gen height]
  vout := [⟨1000, .toKey 1⟩]
  extra := []
  rctSignatures := ⟨.null, 0, [], [], [], []⟩
  pruned := false

def ringTx (pruned : Bool) : Transaction where
  version := 2
  unlockTime := 0
  vin := [.toKey 0 [0] 77]
  vout := [⟨0, .toKey 2⟩]
  extra := []
  rctSignatures := ⟨.clsag, 10, [3], [], [], []⟩
  pruned := pruned

def scriptTx : Transaction where
  version := 1
  unlockTime := 0
  vin := [.toScript]
  vout := []
  extra := []
  rctSignatures := ⟨.null, 0, [], [], [], []⟩
  pruned := false

def tableBlock (height : ℕ) (txHashes : List Hash) : Block where
  majorVersion := 1
  minorVersion := 1
  timestamp := 0
  prevId := height
  nonce := height
  minerTx := gainTx height
  txHashes := txHashes

/-- A blob is a number, for a miner transaction its height, for the one with a script 254 and for
the other one 255, which its prunable part follows. -/
def tableEnv : DbEnv where
  txHash tx :=
    match tx.vin with
    | [.gen height] => height
    | _ => 255
  txPrefixHash _ := 0
  blockHash b := b.nonce + 1
  txWeight _ := 80
  parseBlock
    | n :: rest => some (tableBlock n.toNat (rest.map (·.toNat)))
    | [] => none
  parseTx
    | [255] => none
    | [255, 1] => some (ringTx false)
    | [254] => some scriptTx
    | [n] => some (gainTx n.toNat)
    | _ => none
  parseTxBase
    | [255] => some (ringTx true)
    | [254] => some scriptTx
    | [n] => some (gainTx n.toNat)
    | _ => none
  prunedTxHash _ _ := 0
  checkKey _ := true
  isInMainSubgroup _ := true
  identity := 0
  inKeyImageDomain _ := true
  zeroCommit amount _ := amount.toNat
  verRings _ _ := true
  now := 0
  blockToBlob b := UInt8.ofNat b.nonce :: b.txHashes.map UInt8.ofNat
  txToBlob tx :=
    match tx.vin with
    | [.gen height] => [UInt8.ofNat height]
    | [.toScript] => [254]
    | _ => [255, 1]
  unprunableSize _ := 1
  prunableHash _ _ := 0
  isV1Tx _ := some false

def noTables : Lmdb where
  blocks := ∅
  blockInfo := ∅
  blockHeights := ∅
  txIndices := ∅
  txsPruned := ∅
  txsPrunable := ∅
  txsPrunableHash := ∅
  txsPrunableTip := ∅
  txOutputs := ∅
  outputTxs := ∅
  outputAmounts := .empty
  spentKeys := ∅
  pruningSeed := none

theorem noTables_indexed : noTables.Indexed := by
  refine ⟨?_, ?_, ?_⟩
  all_goals simp [noTables]

def firstEntry : BlockEntry tableEnv where
  blk := tableBlock 0 []
  txs := []
  blockWeight := 80
  longTermBlockWeight := 80
  cumulativeDifficulty := 1
  coinsGenerated := 1000
  parses := rfl
  holdsBase := ⟨gainTx 0, rfl, rfl, rfl, rfl⟩

def ringEntry : TxEntry tableEnv := ⟨ringTx false, [255, 1], ⟨ringTx true, rfl, rfl, rfl, rfl⟩⟩

def scriptEntry : TxEntry tableEnv := ⟨scriptTx, [254], ⟨scriptTx, rfl, rfl, rfl, rfl⟩⟩

def secondEntry (e : TxEntry tableEnv) : BlockEntry tableEnv where
  blk := tableBlock 1 [255]
  txs := [e]
  blockWeight := 160
  longTermBlockWeight := 160
  cumulativeDifficulty := 2
  coinsGenerated := 2000
  parses := rfl
  holdsBase := ⟨gainTx 1, rfl, rfl, rfl, rfl⟩

theorem secondEntry_ringEntry_poppable : (secondEntry ringEntry).Poppable where
  supported := by decide
  amountsKept := by
    intro e he
    simp only [secondEntry, mem_cons, not_mem_nil, or_false] at he
    rcases he with rfl | rfl
    · exact fun _ => .inl rfl
    · exact fun h => by cases h
  whole := by decide

namespace Lmdb

theorem popBlock_addBlock_iff_ringEntry :
    ∃ db db', noTables.addBlock tableEnv firstEntry = .ok db ∧
      db.addBlock tableEnv (secondEntry ringEntry) = .ok db' ∧
      db'.popBlock tableEnv = .ok (tableBlock 1 [255], [ringTx false], db) := by
  have hrun : (noTables.addBlock tableEnv firstEntry >>= fun db =>
      db.addBlock tableEnv (secondEntry ringEntry) >>= fun _ => pure ()) = .ok () := by
    decide
  simp only [bind_eq_ok, pure_eq_ok, and_true] at hrun
  obtain ⟨db, hfirst, db', hsecond⟩ := hrun
  exact ⟨db, db', hfirst, hsecond, (popBlock_addBlock_iff tableEnv db
    (noTables_indexed.addBlock hfirst) _ db' hsecond).2 secondEntry_ringEntry_poppable⟩

/-- A block whose transaction spends the output of a script is added without the transaction, and
cannot be popped, for the transaction is not found. -/
theorem popBlock_scriptEntry_error :
    ∃ db db', noTables.addBlock tableEnv firstEntry = .ok db ∧ db.Indexed ∧
      db.addBlock tableEnv (secondEntry scriptEntry) = .ok db' ∧
      ∃ e, db'.popBlock tableEnv = .error e := by
  have hrun : (noTables.addBlock tableEnv firstEntry >>= fun db =>
      db.addBlock tableEnv (secondEntry scriptEntry) >>= fun db' =>
        pure (db'.popBlock tableEnv).isOk) = .ok false := by decide
  simp only [bind_eq_ok] at hrun
  obtain ⟨db, hfirst, db', hsecond, hpop⟩ := hrun
  refine ⟨db, db', hfirst, noTables_indexed.addBlock hfirst, hsecond, ?_⟩
  cases herr : db'.popBlock tableEnv with
  | error e => exact ⟨e, rfl⟩
  | ok r =>
    rw [herr] at hpop
    cases hpop

theorem popBlocks_addBlocks_two :
    ∃ db', [firstEntry, secondEntry ringEntry].foldlM (addBlock tableEnv) noTables = .ok db' ∧
      popBlocks tableEnv 2 db' =
        .ok ([(tableBlock 1 [255], [ringTx false]), (tableBlock 0 [], [])], noTables) := by
  have hrun : ([firstEntry, secondEntry ringEntry].foldlM (addBlock tableEnv) noTables).isOk =
      true := by decide
  cases hadd : [firstEntry, secondEntry ringEntry].foldlM (addBlock tableEnv) noTables with
  | error e =>
    rw [hadd] at hrun
    cases hrun
  | ok db' =>
    have hfirst : firstEntry.Poppable :=
      ⟨by decide, fun e he => by cases mem_singleton.mp he; exact fun _ => .inl rfl, by decide⟩
    exact ⟨db', rfl, popBlocks_addBlocks noTables_indexed
      (by simp [hfirst, secondEntry_ringEntry_poppable]) hadd⟩

end Lmdb

end Nerva
