import Nerva.Proofs.Mempool
import Nerva.Proofs.TxPool

/-!
# The two models of the pool

The node's pool has one list for the table and for the sorted container. It goes the way of the pool
whose containers are apart, call by call, as long as what is added is new to the pool and uses no
key image twice; so what is kept in memory describes the transactions there too.
-/

namespace Nerva

open Checks List TxPool

theorem table_ids (pool : TxPool) : pool.table.map (·.id) = pool.ids := by
  unfold table ids
  rw [map_map]
  rfl

/-- The same pool with its containers apart; the table has the rows in some order. -/
structure TxMemoryPool.Models (mp : TxMemoryPool) (pool : TxPool) : Prop where
  table : mp.table.Perm pool.table
  maxWeight : mp.txpoolMaxWeight = pool.maxWeight
  weight : mp.txpoolWeight = pool.txpoolWeight
  sorted : mp.txsByFeeAndReceiveTime = pool.txs.map PoolTx.entry
  index : mp.spentKeyImages = pool.spentKeyImages
  timedOut : mp.timedOutTransactions = pool.timedOutTransactions
  cookie : mp.cookie = pool.cookie

namespace TxMemoryPool

variable {mp : TxMemoryPool} {pool left : TxPool} {e : PoolTx} {id : Hash} {tx : Transaction}

theorem Models.nodup (h : mp.Models pool) : (mp.table.map (·.id)).Nodup := by
  rw [(h.table.map _).nodup_iff, table_ids]
  exact pool.nodup

theorem Models.mem_table (h : mp.Models pool) {r : TxpoolRow} :
    r ∈ mp.table ↔ ∃ e ∈ pool.txs, e.row = r := by
  rw [h.table.mem_iff, TxPool.table, mem_map]

theorem Models.find? (h : mp.Models pool) (id : Hash) :
    mp.find? id = (pool.find? id).map PoolTx.row := by
  refine Option.ext fun r => ?_
  rw [TxMemoryPool.find?, Keyed.lookup_eq_some_iff h.nodup, Option.map_eq_some_iff, h.mem_table]
  simp only [find?_eq_some_iff]
  constructor
  · rintro ⟨⟨e, he, rfl⟩, hid⟩
    exact ⟨e, ⟨he, hid⟩, rfl⟩
  · rintro ⟨e, ⟨he, hid⟩, rfl⟩
    exact ⟨⟨e, he, rfl⟩, hid⟩

theorem entries_nodup (pool : TxPool) : ((pool.txs.map PoolTx.entry).map (·.id)).Nodup := by
  rw [map_map]
  exact pool.nodup

theorem entries_removeTx (pool : TxPool) (e : PoolTx) :
    (pool.removeTx e).txs.map PoolTx.entry =
      (pool.txs.map PoolTx.entry).filter fun a => decide (a.id ≠ e.id) := by
  rw [filter_map]
  rfl

theorem Models.removeTx (h : mp.Models pool) (e : PoolTx) :
    Models { mp.removeTx e.row with
      txsByFeeAndReceiveTime := (pool.removeTx e).txs.map PoolTx.entry } (pool.removeTx e) where
  table := by
    have hfilter := h.table.filter fun r => decide (r.id ≠ e.id)
    rw [TxPool.table, filter_map] at hfilter
    exact hfilter
  maxWeight := h.maxWeight
  weight := congrArg (· - UInt64.ofNat e.info.weight) h.weight
  sorted := rfl
  index := congrArg (fun index => (removeTransactionKeyimages e.id e.tx.vin index).2) h.index
  timedOut := h.timedOut
  cookie := by
    change (if (removeTransactionKeyimages e.id e.tx.vin mp.spentKeyImages).1 then _ else _) = _
    rw [h.index, h.cookie]
    rfl

theorem Models.takeTx_none (h : mp.Models pool) (htake : pool.takeTx id = none) :
    mp.takeTx id = none := by
  unfold TxMemoryPool.takeTx
  rw [h.find?, Option.map_eq_none_iff.mp htake]
  rfl

/-- `take_tx` in both models. -/
theorem Models.takeTx (h : mp.Models pool) (htake : pool.takeTx id = some (e, left)) :
    ∃ left', mp.takeTx id = some (e.row, left') ∧ left'.Models left := by
  obtain ⟨he, rfl, rfl⟩ := takeTx_eq_some_iff.mp htake
  have hfind := h.find? e.id
  rw [find?_eq_some_iff.mpr ⟨he, rfl⟩] at hfind
  have hsorted : eraseSorted e.id mp.txsByFeeAndReceiveTime =
      (pool.removeTx e).txs.map PoolTx.entry := by
    rw [h.sorted, entries_removeTx, eraseSorted, Keyed.eraseP_eq_filter (entries_nodup pool)]
  unfold TxMemoryPool.takeTx
  rw [hfind]
  refine ⟨_, rfl, ?_⟩
  have hmodels := h.removeTx e
  rw [← hsorted] at hmodels
  exact { hmodels with cookie := congrArg (· + 1) hmodels.cookie }

theorem Models.mapInfo (h : mp.Models pool) {f : TxpoolRow → TxpoolTxMeta}
    {g : PoolTx → TxpoolTxMeta} (hfg : ∀ e ∈ pool.txs, f e.row = g e) :
    (mp.mapInfo f).Models (pool.mapInfo g) where
  table := by
    refine (h.table.map _).trans (.of_eq ?_)
    unfold TxPool.table TxPool.mapInfo
    rw [map_map, map_map]
    refine map_congr_left fun e he => ?_
    simp only [Function.comp_apply, hfg e he]
    rfl
  maxWeight := h.maxWeight
  weight := h.weight
  sorted := by
    unfold TxPool.mapInfo
    rw [map_map]
    exact h.sorted
  index := h.index
  timedOut := h.timedOut
  cookie := h.cookie

/-- `update_txpool_tx` in both models. -/
theorem Models.updateTxpoolTx (h : mp.Models pool) (id : Hash) (info : TxpoolTxMeta) :
    (mp.updateTxpoolTx id info).1 = (pool.find? id).isSome ∧
      (mp.updateTxpoolTx id info).2.Models (pool.updateTxpoolTx id info) := by
  refine ⟨?_, h.mapInfo fun e _ => rfl⟩
  unfold TxMemoryPool.updateTxpoolTx
  rw [h.find?, Option.isSome_map]

/-- Where nothing is changed in one pool, nothing is changed in the other. -/
theorem Models.mapInfo_eq_iff (h : mp.Models pool) {f : TxpoolRow → TxpoolTxMeta}
    {g : PoolTx → TxpoolTxMeta} (hfg : ∀ e ∈ pool.txs, f e.row = g e) :
    (mp.mapInfo f).table = mp.table ↔ (pool.mapInfo g).txs = pool.txs := by
  have hrows := map_inj_left (f := fun r => { r with info := f r }) (g := id) (l := mp.table)
  have htxs := map_inj_left (f := fun e => { e with info := g e }) (g := id) (l := pool.txs)
  rw [map_id] at hrows htxs
  refine hrows.trans (Iff.trans ⟨fun hall e he => ?_, fun hall r hr => ?_⟩ htxs.symm)
  · have hinfo := congrArg TxpoolRow.info (hall e.row (h.mem_table.mpr ⟨e, he, rfl⟩))
    rw [← hfg e he, show f e.row = e.info from hinfo]
    rfl
  · obtain ⟨e, he, rfl⟩ := h.mem_table.mp hr
    have hinfo := congrArg PoolTx.info (hall e he)
    rw [hfg e he, show g e = e.info from hinfo]
    rfl

theorem Models.markDoubleSpend (h : mp.Models pool) (tx : Transaction) :
    (mp.markDoubleSpend tx).Models (pool.markDoubleSpend tx) := by
  unfold TxMemoryPool.markDoubleSpend TxPool.markDoubleSpend
  rw [h.index]
  refine { h.mapInfo fun e _ => rfl with cookie := ?_ }
  simp only [h.mapInfo_eq_iff fun e _ => rfl, h.cookie]
  rfl

/-- The loop of `prune` in both models. -/
theorem Models.pruneFrom (bytes : ℕ) : ∀ (rest : List PoolTx) (changed : Bool)
    {mp : TxMemoryPool} {pool : TxPool}, mp.Models pool → (∀ a ∈ rest, a ∈ pool.txs) →
    (rest.map (·.id)).Nodup →
    ∃ left, mp.pruneFrom bytes changed (rest.map PoolTx.entry) =
        (true, (pool.pruneFrom bytes changed rest).1, left) ∧
      left.Models (pool.pruneFrom bytes changed rest).2
  | [], changed, mp, pool, h, _, _ => ⟨mp, rfl, h⟩
  | e :: rest, changed, mp, pool, h, hmem, hnodup => by
    rw [map_cons, nodup_cons] at hnodup
    rw [forall_mem_cons] at hmem
    obtain ⟨he, hmem⟩ := hmem
    have hfind : mp.find? e.entry.id = some e.row := by
      rw [h.find?, show pool.find? e.entry.id = some e from find?_eq_some_iff.mpr ⟨he, rfl⟩]
      rfl
    rw [map_cons, TxMemoryPool.pruneFrom, TxPool.pruneFrom, h.weight, hfind]
    split
    · exact ⟨mp, rfl, h⟩
    · have hkept : e.row.info.keptByBlock = e.info.keptByBlock := rfl
      simp only [hkept]
      split
      · exact Models.pruneFrom bytes rest changed h hmem hnodup.2
      · have hsorted : mp.txsByFeeAndReceiveTime.erase e.entry =
            (pool.removeTx e).txs.map PoolTx.entry := by
          rw [h.sorted, entries_removeTx, Keyed.erase_eq_filter (entries_nodup pool)
            (mem_map_of_mem he)]
          rfl
        have hmodels := h.removeTx e
        rw [← hsorted] at hmodels
        refine Models.pruneFrom bytes rest true hmodels (fun a ha => ?_) hnodup.2
        exact mem_removeTx.mpr ⟨hmem a ha, fun heq => hnodup.1 (heq ▸ mem_map_of_mem ha)⟩

/-- `prune` on the two pools; a limit of zero stands for the pool's own. -/
theorem Models.prune (h : mp.Models pool) (bytes : ℕ) (nested : Bool) :
    (mp.prune bytes nested).Models
      (pool.prune (if bytes = 0 then pool.maxWeight else bytes)) := by
  have hentries : mp.txsByFeeAndReceiveTime.tail.reverse =
      pool.txs.tail.reverse.map PoolTx.entry := by
    rw [h.sorted, map_reverse, map_tail]
  unfold TxMemoryPool.prune TxPool.prune
  rw [hentries, h.maxWeight]
  generalize (if bytes = 0 then pool.maxWeight else bytes) = limit
  obtain ⟨left, heq, hleft⟩ := h.pruneFrom limit pool.txs.tail.reverse false
    (fun a ha => mem_of_mem_tail (mem_reverse.mp ha)) (by
      rw [map_reverse, nodup_reverse]
      exact pool.nodup.sublist ((tail_sublist _).map _))
  simp only [heq, if_true]
  refine { hleft with cookie := ?_ }
  rw [hleft.cookie]

/-- A transaction that is new to the pool, with inputs the index takes, is stored in both. -/
theorem Models.store (h : mp.Models pool) (hkept : mp.Kept) {e : PoolTx} {rate : UInt64 → ℕ → ℕ}
    (hadd : mp.Addable e.tx e.id)
    (hrate : e.sortRate = rate e.info.fee (if e.info.weight = 0 then 1 else e.info.weight))
    (hinputs : checkInputsTypesSupported e.tx = true)
    (hfree : e.info.keptByBlock = true ∨ ∀ k ∈ e.tx.keyImages, mp.spentKeyImages.ids k = ∅)
    (nested : Bool) :
    (mp.store rate e.row e.sortTime nested).1 = (pool.store e).1 ∧
      (mp.store rate e.row e.sortTime nested).2.Models (pool.store e).2 := by
  have hnew : e.id ∉ pool.ids ∧ e.tx.keyImages.Nodup := by
    have hfresh := hadd.fresh
    rw [(h.table.map _).mem_iff, table_ids] at hfresh
    exact ⟨hfresh, hadd.keyImages⟩
  have hentry : e.entry ∉ mp.txsByFeeAndReceiveTime := by
    rw [h.sorted]
    intro hmem
    obtain ⟨a, ha, heq⟩ := mem_map.mp hmem
    exact hnew.1 (mem_map.mpr ⟨a, ha, congrArg SortedTx.id heq⟩)
  have hadded : (mp.added rate e.row e.sortTime).Models (pool.insert e hnew.1) :=
    { table := (h.table.cons e.row).trans
        ((perm_orderedInsert comesBefore e pool.txs).map PoolTx.row).symm
      maxWeight := h.maxWeight
      weight := congrArg (· + UInt64.ofNat e.info.weight) h.weight
      sorted := by
        have hplace : (⟨rate e.info.fee (if e.info.weight = 0 then 1 else e.info.weight),
            e.sortTime, e.id⟩ : SortedTx) = e.entry := by
          rw [← hrate]
          rfl
        refine (congrArg (fun a => emplace a mp.txsByFeeAndReceiveTime) hplace).trans ?_
        rw [emplace, if_neg hentry, h.sorted]
        exact (map_orderedInsert comesBefore SortedTx.before PoolTx.entry pool.txs e
          (fun _ _ => Iff.rfl) fun _ _ => Iff.rfl).symm
      index := by
        have hindex := hkept.insertKeyImages_eq e.row hadd hinputs hfree
        refine (congrArg Prod.snd hindex).symm.trans ?_
        rw [h.index]
        rfl
      timedOut := h.timedOut
      cookie := congrArg (· + 2) h.cookie }
  have hlimit : (if mp.txpoolMaxWeight = 0 then pool.maxWeight else mp.txpoolMaxWeight) =
      pool.maxWeight := by
    rw [h.maxWeight, ite_self]
  have hpruned := hadded.prune mp.txpoolMaxWeight nested
  rw [show (pool.insert e hnew.1).maxWeight = pool.maxWeight from rfl, hlimit] at hpruned
  rw [hkept.store_eq e.row hadd hinputs hfree, TxPool.store, dif_pos hnew]
  exact ⟨rfl, hpruned⟩

theorem Models.haveTxKeyimgesAsSpent (h : mp.Models pool) (tx : Transaction) :
    mp.haveTxKeyimgesAsSpent tx = pool.haveTxKeyimgesAsSpent tx := by
  unfold TxMemoryPool.haveTxKeyimgesAsSpent TxPool.haveTxKeyimgesAsSpent
  rw [h.index]

/-- `add_tx` gives the same verdict on the two pools, and leaves the same pool. -/
theorem Models.addTx (h : mp.Models pool) (hkept : mp.Kept) (ce : ChainEnv) (bc : Blockchain)
    (txWeight : ℕ) (keptByBlock relayed doNotRelay : Bool) (version : ℕ) (nested : Bool)
    (hadd : mp.Addable tx id) :
    (mp.addTx ce bc tx id txWeight keptByBlock relayed doNotRelay version nested).1 =
        (pool.addTx ce bc tx id txWeight keptByBlock relayed doNotRelay version).1 ∧
      (mp.addTx ce bc tx id txWeight keptByBlock relayed doNotRelay version nested).2.Models
        (pool.addTx ce bc tx id txWeight keptByBlock relayed doNotRelay version).2 := by
  unfold TxMemoryPool.addTx TxPool.addTx
  rw [h.haveTxKeyimgesAsSpent, h.timedOut]
  cases hchecks : addTxChecks ce.toEnv bc pool.timedOutTransactions (pool.haveTxKeyimgesAsSpent tx)
      tx id txWeight keptByBlock version with
  | error flag =>
    refine ⟨rfl, ?_⟩
    simp only []
    split
    · exact h.markDoubleSpend tx
    · exact h
  | ok _ =>
    simp only [addTxChecks, bind_eq_ok, exists_unit, require_eq_ok] at hchecks
    obtain ⟨-, -, hinputs, -, -, -, hspent, -⟩ := hchecks
    rw [← h.haveTxKeyimgesAsSpent] at hspent
    have hfree := hspent.imp (fun hblock => hblock) hkept.free_of_not_spent
    cases checkTxInputsFor ce.toEnv bc tx with
    | none =>
      simp only []
      split
      · exact h.store (e := ⟨id, tx, _, _, ce.now⟩) hkept hadd rfl hinputs hfree nested
      · exact ⟨rfl, h⟩
    | some used => exact h.store (e := ⟨id, tx, _, _, ce.now⟩) hkept hadd rfl hinputs hfree nested

/-- A turn of `validate` in both models. -/
theorem Models.revalidate (h : mp.Models pool) (hkept : mp.Kept) (ce : ChainEnv) (bc : Blockchain)
    (version : ℕ) (e : PoolTx) :
    (mp.revalidate ce bc version e.row).1 = (pool.revalidate ce bc version e).1 ∧
      (mp.revalidate ce bc version e.row).2.Models (pool.revalidate ce bc version e).2 := by
  unfold TxMemoryPool.revalidate TxPool.revalidate
  cases htake : pool.takeTx e.id with
  | none =>
    rw [show mp.takeTx e.row.id = none from h.takeTx_none htake]
    exact ⟨rfl, h⟩
  | some r =>
    obtain ⟨taken, left⟩ := r
    obtain ⟨left', htake', hleft⟩ := h.takeTx htake
    rw [show mp.takeTx e.row.id = some (taken.row, left') from htake']
    obtain ⟨hkept', htaken, hid, hrows⟩ := hkept.takeTx htake'
    have hadd : left'.Addable taken.tx e.id := by
      refine ⟨fun hc => ?_, (hkept.indexable taken.row htaken).keyImages⟩
      obtain ⟨r, hr, hrid⟩ := mem_map.mp hc
      exact ((hrows r).mp hr).2 hrid
    obtain ⟨hverdict, hadded⟩ := hleft.addTx hkept' ce bc e.info.weight false taken.info.relayed
      taken.info.doNotRelay version true hadd
    simp only [PoolTx.row]
    generalize left.addTx ce bc taken.tx e.id e.info.weight false taken.info.relayed
      taken.info.doNotRelay version = r at hverdict hadded ⊢
    generalize left'.addTx ce bc taken.tx e.id e.info.weight false taken.info.relayed
      taken.info.doNotRelay version true = r' at hverdict hadded ⊢
    obtain ⟨verdict, added⟩ := r
    obtain ⟨verdict', added'⟩ := r'
    obtain rfl : verdict' = verdict := hverdict
    cases verdict' with
    | error flag => exact ⟨rfl, hadded⟩
    | ok _ =>
      obtain ⟨hfound, hupdated⟩ := hadded.updateTxpoolTx e.id e.info
      simp only [] at hfound hupdated ⊢
      rw [hfound, Option.not_isSome]
      exact ⟨rfl, hupdated⟩

theorem Models.inKeyOrder (h : mp.Models pool) {rank : Hash → ℕ} (hrank : Function.Injective rank) :
    mp.inKeyOrder rank = (pool.inKeyOrder rank).map PoolTx.row := by
  have htrans : IsTrans TxpoolRow fun a b => rank a.id ≤ rank b.id := ⟨fun _ _ _ => le_trans⟩
  have htotal : Std.Total fun a b : TxpoolRow => rank a.id ≤ rank b.id :=
    ⟨fun _ _ => Nat.le_total _ _⟩
  have htrans' : IsTrans PoolTx fun a b => rank a.id ≤ rank b.id := ⟨fun _ _ _ => le_trans⟩
  have htotal' : Std.Total fun a b : PoolTx => rank a.id ≤ rank b.id :=
    ⟨fun _ _ => Nat.le_total _ _⟩
  have hperm : (mp.inKeyOrder rank).Perm ((pool.inKeyOrder rank).map PoolTx.row) :=
    (perm_insertionSort _ _).trans (h.table.trans ((perm_insertionSort _ _).map _).symm)
  have hrows : (mp.inKeyOrder rank).Pairwise fun a b => rank a.id ≤ rank b.id :=
    pairwise_insertionSort _ _
  have htxs : ((pool.inKeyOrder rank).map PoolTx.row).Pairwise fun a b => rank a.id ≤ rank b.id :=
    pairwise_map.mpr (pairwise_insertionSort _ _)
  refine hperm.eq_of_pairwise (fun a b ha hb hab hba => ?_) hrows htxs
  -- rows of the table with the same id are the same
  have hmem := (mem_insertionSort _).mp ha
  have hmem' := (mem_insertionSort _).mp (hperm.mem_iff.mpr hb)
  exact inj_on_of_nodup_map h.nodup hmem hmem' (hrank (le_antisymm hab hba))

/-- `validate` takes out the same transactions in the two pools. -/
theorem Models.validate (h : mp.Models pool) (hkept : mp.Kept) (ce : ChainEnv) (bc : Blockchain)
    (version : ℕ) (hrank : Function.Injective ce.keyRank) :
    (mp.validate ce bc version).Models (pool.validate ce bc version) := by
  have hfold : ∀ (es : List PoolTx) (removed : Bool) {mp : TxMemoryPool} {pool : TxPool},
      mp.Models pool → mp.Kept →
      ((es.map PoolTx.row).foldl (fun s row =>
          let turn := s.2.revalidate ce bc version row
          (s.1 || turn.1, turn.2)) (removed, mp)).1 =
        (es.foldl (fun s e =>
          let turn := s.2.revalidate ce bc version e
          (s.1 || turn.1, turn.2)) (removed, pool)).1 ∧
      ((es.map PoolTx.row).foldl (fun s row =>
          let turn := s.2.revalidate ce bc version row
          (s.1 || turn.1, turn.2)) (removed, mp)).2.Models
        (es.foldl (fun s e =>
          let turn := s.2.revalidate ce bc version e
          (s.1 || turn.1, turn.2)) (removed, pool)).2 := by
    intro es
    induction es with
    | nil => exact fun _ _ _ h _ => ⟨rfl, h⟩
    | cons e es ih =>
      intro removed mp pool h hkept
      obtain ⟨hremoved, hmodels⟩ := h.revalidate hkept ce bc version e
      rw [map_cons, foldl_cons, foldl_cons]
      simp only [hremoved]
      exact ih _ hmodels (hkept.revalidate ce bc version e.row)
  have htxes : ((mp.inKeyOrder ce.keyRank).filter fun r => !r.info.pruned) =
      ((pool.inKeyOrder ce.keyRank).filter fun e => !e.info.pruned).map PoolTx.row := by
    rw [h.inKeyOrder hrank, filter_map]
    rfl
  obtain ⟨hremoved, hmodels⟩ := hfold
    ((pool.inKeyOrder ce.keyRank).filter fun e => !e.info.pruned) false h hkept
  rw [← htxes] at hremoved hmodels
  refine { hmodels with cookie := ?_ }
  unfold TxMemoryPool.validate TxPool.validate
  simp only [hremoved, hmodels.cookie]

end TxMemoryPool

namespace TxPool

open TxMemoryPool

/-- What the node's pool keeps in memory. -/
def memory (pool : TxPool) : PoolMemory := ⟨pool.txpoolWeight, pool.ids, pool.spentKeyImages⟩

/-- The memory describes the transactions, and these are such as the index takes. -/
def Kept (pool : TxPool) : Prop := Sound [] pool.memory pool.table

/-- The containers of the node's pool. -/
def containers (pool : TxPool) : TxMemoryPool where
  table := pool.table
  txpoolMaxWeight := pool.maxWeight
  txpoolWeight := pool.txpoolWeight
  txsByFeeAndReceiveTime := pool.txs.map PoolTx.entry
  spentKeyImages := pool.spentKeyImages
  timedOutTransactions := pool.timedOutTransactions
  cookie := pool.cookie

variable {pool left : TxPool} {mp : TxMemoryPool} {e : PoolTx} {id : Hash}

theorem containers_models (pool : TxPool) : pool.containers.Models pool where
  table := .refl _
  maxWeight := rfl
  weight := rfl
  sorted := rfl
  index := rfl
  timedOut := rfl
  cookie := rfl

/-- Both models say the same of a pool that is kept in step. -/
theorem kept_iff_of_models (h : mp.Models pool) : pool.Kept ↔ mp.Kept := by
  have hmemory : mp.memory = pool.memory := by
    unfold TxMemoryPool.memory memory ids
    rw [h.weight, h.index, h.sorted, map_map]
    rfl
  unfold Kept TxMemoryPool.Kept
  rw [hmemory]
  exact ⟨fun hsound => hsound.perm h.table.symm, fun hsound => hsound.perm h.table⟩

theorem Kept.containers (h : pool.Kept) : pool.containers.Kept :=
  (kept_iff_of_models pool.containers_models).mp h

theorem Kept.takeTx (h : pool.Kept) (htake : pool.takeTx id = some (e, left)) : left.Kept := by
  obtain ⟨left', htake', hleft⟩ := pool.containers_models.takeTx htake
  exact (kept_iff_of_models hleft).mpr (h.containers.takeTx htake').1

/-- A transaction that is not new to the pool, or uses a key image twice, is not stored. -/
theorem addTx_of_not_addable {tx : Transaction} (hnot : ¬pool.containers.Addable tx id)
    (ce : ChainEnv) (bc : Blockchain) (txWeight : ℕ) (keptByBlock relayed doNotRelay : Bool)
    (version : ℕ) :
    (pool.addTx ce bc tx id txWeight keptByBlock relayed doNotRelay version).2 =
        pool.markDoubleSpend tx ∨
      (pool.addTx ce bc tx id txWeight keptByBlock relayed doNotRelay version).2 = pool := by
  have hstore : ∀ info rate time, pool.store ⟨id, tx, info, rate, time⟩ = (.error none, pool) := by
    intro info rate time
    refine dif_neg fun hc => hnot ⟨?_, hc.2⟩
    rw [show pool.containers.table = pool.table from rfl, table_ids]
    exact hc.1
  unfold TxPool.addTx
  simp only [hstore]
  split
  · split
    · exact .inl rfl
    · exact .inr rfl
  · split
    · split <;> exact .inr rfl
    · exact .inr rfl

/-- `add_tx` keeps the node's pool in step, whatever it returns. -/
theorem Kept.addTx (h : pool.Kept) (ce : ChainEnv) (bc : Blockchain) (tx : Transaction) (id : Hash)
    (txWeight : ℕ) (keptByBlock relayed doNotRelay : Bool) (version : ℕ) :
    (pool.addTx ce bc tx id txWeight keptByBlock relayed doNotRelay version).2.Kept := by
  by_cases hadd : pool.containers.Addable tx id
  · have hmodels := pool.containers_models.addTx h.containers ce bc txWeight keptByBlock relayed
      doNotRelay version true hadd
    refine (kept_iff_of_models hmodels.2).mpr ?_
    exact (h.containers.addTx ce bc txWeight keptByBlock relayed doNotRelay version true hadd).1
  · rcases addTx_of_not_addable hadd ce bc txWeight keptByBlock relayed doNotRelay version with
      heq | heq
    · rw [heq]
      exact (kept_iff_of_models (pool.containers_models.markDoubleSpend tx)).mpr
        (h.containers.markDoubleSpend tx)
    · rwa [heq]

theorem Kept.revalidate (h : pool.Kept) (ce : ChainEnv) (bc : Blockchain) (version : ℕ)
    (e : PoolTx) : (pool.revalidate ce bc version e).2.Kept :=
  (kept_iff_of_models (pool.containers_models.revalidate h.containers ce bc version e).2).mpr
    (h.containers.revalidate ce bc version e.row)

theorem validate_keeps {Q : TxPool → Prop} {ce : ChainEnv} {bc : Blockchain} {version : ℕ}
    (hturn : ∀ pool e, Q pool → Q (pool.revalidate ce bc version e).2)
    (hcookie : ∀ pool cookie, Q pool → Q { pool with cookie }) (h : Q pool) :
    Q (pool.validate ce bc version) := by
  have hfold : ∀ (es : List PoolTx) (s : Bool × TxPool), Q s.2 →
      Q (es.foldl (fun s e =>
        let turn := s.2.revalidate ce bc version e
        (s.1 || turn.1, turn.2)) s).2 := by
    intro es
    induction es with
    | nil => exact fun _ => id
    | cons e es ih => exact fun s hs => ih _ (hturn s.2 e hs)
  exact hcookie _ _ (hfold _ (false, pool) h)

/-- `validate` keeps the node's pool in step. -/
theorem Kept.validate (h : pool.Kept) (ce : ChainEnv) (bc : Blockchain) (version : ℕ) :
    (pool.validate ce bc version).Kept :=
  validate_keeps (fun _ e hpool => hpool.revalidate ce bc version e) (fun _ _ hpool => hpool) h

end TxPool

end Nerva
