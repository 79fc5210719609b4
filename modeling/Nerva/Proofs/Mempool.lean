import Nerva.Mempool
import Nerva.Proofs.Reorg

/-!
# The pool's memory describes its table

The total weight, the sorted container and the index of spent key images are those of the rows in
the pool's table. Every operation keeps this, as long as what is added is new to the pool and uses
no key image twice.
-/

namespace Nerva

open Checks List TxIn Index

/-- What the pool keeps in memory beside its table. -/
structure PoolMemory where
  weight : UInt64
  sortedIds : List Hash
  spentKeyImages : Index KeyImage Hash

/-- The weights of all transactions of the table. -/
def tableWeight (table : List TxpoolRow) : ℕ :=
  table.foldr (fun row weight => row.info.weight + weight) 0

/-- A transaction of the table spends a key image. -/
def Spends (table : List TxpoolRow) (k : KeyImage) (id : Hash) : Prop :=
  ∃ row ∈ table, row.id = id ∧ k ∈ row.tx.keyImages

/-- The memory describes the table, but for the ids in `gone`, which have left the sorted container
already. -/
structure PoolMemory.DescribesBut (gone : List Hash) (m : PoolMemory) (table : List TxpoolRow) :
    Prop where
  weight : m.weight = UInt64.ofNat (tableWeight table)
  nodup : (table.map (·.id)).Nodup
  sorted : (m.sortedIds ++ gone).Perm (table.map (·.id))
  index : m.spentKeyImages.Describes (Spends table)

/-- The memory describes the table: its weight is the sum of the weights, as a 64-bit number, its
sorted ids are the ids each once, its index maps each key image to the ids that spend it, with no
empty sets. -/
def PoolMemory.Describes (m : PoolMemory) (table : List TxpoolRow) : Prop := m.DescribesBut [] table

/-- A key image is spent once by transactions that did not come with a block. -/
def SpentOnce (table : List TxpoolRow) : Prop :=
  ∀ row ∈ table, ∀ row' ∈ table, row.info.keptByBlock = false → row'.info.keptByBlock = false →
    ∀ k, k ∈ row.tx.keyImages → k ∈ row'.tx.keyImages → row = row'

/-- What `insert_key_images` needs of a transaction. -/
structure Transaction.Indexable (tx : Transaction) : Prop where
  inputs : checkInputsTypesSupported tx = true
  keyImages : tx.keyImages.Nodup

/-- The invariant of the rows, with the memory that goes with them. -/
structure Sound (gone : List Hash) (m : PoolMemory) (table : List TxpoolRow) : Prop
    extends m.DescribesBut gone table where
  once : SpentOnce table
  indexable : ∀ row ∈ table, row.tx.Indexable

variable {table : List TxpoolRow} {table' : List TxpoolRow}

theorem tableWeight_perm (h : table.Perm table') : tableWeight table = tableWeight table' := by
  refine h.foldr_eq' (fun _ _ _ _ _ => ?_) 0
  exact Nat.add_left_comm _ _ _

theorem spends_cons {row : TxpoolRow} {k : KeyImage} {id : Hash} :
    Spends (row :: table) k id ↔ (k ∈ row.tx.keyImages ∧ id = row.id) ∨ Spends table k id := by
  unfold Spends
  simp only [mem_cons, exists_eq_or_imp]
  exact or_congr ⟨fun ⟨h, h'⟩ => ⟨h', h.symm⟩, fun ⟨h, h'⟩ => ⟨h'.symm, h⟩⟩ Iff.rfl

section Rows

variable {gone : List Hash} {m : PoolMemory} {table table' : List TxpoolRow} {row : TxpoolRow}
  {id : Hash}

theorem Sound.perm (h : Sound gone m table) (hperm : table.Perm table') : Sound gone m table' where
  weight := h.weight.trans (congrArg _ (tableWeight_perm hperm))
  nodup := (hperm.map _).nodup_iff.mp h.nodup
  sorted := h.sorted.trans (hperm.map _)
  index := h.index.congr fun _ _ => exists_congr fun _ => and_congr_left' hperm.mem_iff
  once := fun a ha b hb => h.once a (hperm.mem_iff.mpr ha) b (hperm.mem_iff.mpr hb)
  indexable := fun a ha => h.indexable a (hperm.mem_iff.mpr ha)

theorem Sound.find (h : Sound gone m table) (hid : id ∈ table.map (·.id)) :
    ∃ row ∈ table, row.id = id ∧ Keyed.lookup TxpoolRow.id id table = some row := by
  obtain ⟨row, hrow, rfl⟩ := mem_map.mp hid
  exact ⟨row, hrow, rfl, (Keyed.lookup_eq_some_iff h.nodup).mpr ⟨hrow, rfl⟩⟩

theorem tableWeight_cons (row : TxpoolRow) (table : List TxpoolRow) :
    tableWeight (row :: table) = row.info.weight + tableWeight table := rfl

/-- The transaction may be filed under the key image. -/
def Fits (kept : Bool) (id : Hash) (index : Index KeyImage Hash) (k : KeyImage) : Prop :=
  id ∉ index.ids k ∧ (kept = true ∨ index.ids k = ∅)

theorem fits_add_iff {kept : Bool} {index : Index KeyImage Hash} {k : KeyImage}
    {ks : List KeyImage} :
    (∀ k' ∈ ks, Fits kept id (index.add k id) k') ↔
      k ∉ ks ∧ ∀ k' ∈ ks, Fits kept id index k' := by
  have hother : ∀ {k'}, k' ≠ k → (index.add k id).ids k' = index.ids k' := fun hne => by
    rw [ids_add, if_neg hne]
  constructor
  · intro h
    have hnot : k ∉ ks := fun hk => (h k hk).1 (by
      rw [ids_add, if_pos rfl]
      exact Finset.mem_insert_self _ _)
    refine ⟨hnot, fun k' hk' => ?_⟩
    have hfits := h k' hk'
    unfold Fits at hfits
    rwa [hother fun heq => hnot (heq ▸ hk')] at hfits
  · rintro ⟨hnot, h⟩ k' hk'
    unfold Fits
    rw [hother fun heq => hnot (heq ▸ hk')]
    exact h k' hk'

/-- Key images are inserted when they are distinct and each may be filed. -/
theorem insertKeyImages_eq_true_iff (kept : Bool) (id : Hash) :
    ∀ (vin : List TxIn) (index index' : Index KeyImage Hash),
    insertKeyImages kept id vin index = (true, index') ↔
      vin.all isToKey = true ∧ (vin.filterMap keyImage?).Nodup ∧
      (∀ k ∈ vin.filterMap keyImage?, Fits kept id index k) ∧
      index' = addAll id (vin.filterMap keyImage?) index
  | [], index, index' => by
    simp [insertKeyImages, addAll, eq_comm]
  | .gen _ :: rest, index, index' => by
    simp [insertKeyImages, isToKey]
  | .toScript :: rest, index, index' => by
    simp [insertKeyImages, isToKey]
  | .toScripthash :: rest, index, index' => by
    simp [insertKeyImages, isToKey]
  | .toKey amount offsets k :: rest, index, index' => by
    have ih := insertKeyImages_eq_true_iff kept id rest (index.add k id) index'
    have hkeys : (toKey amount offsets k :: rest).filterMap keyImage? =
        k :: rest.filterMap keyImage? := rfl
    rw [insertKeyImages, hkeys]
    by_cases hfits : Fits kept id index k
    · rw [if_neg (not_not.mpr hfits.2), if_neg hfits.1, ih, fits_add_iff, all_cons,
        nodup_cons, forall_mem_cons]
      simp only [isToKey, Bool.true_and, addAll]
      tauto
    · have hfalse : ∀ index'', ¬((false, index'') : Bool × Index KeyImage Hash) = (true, index') :=
        fun _ hc => by cases hc
      refine iff_of_false ?_ fun h => hfits (h.2.2.1 k mem_cons_self)
      split
      · exact hfalse _
      · split
        · exact hfalse _
        · rename_i hset hid
          exact absurd ⟨hid, not_not.mp hset⟩ hfits

/-- Key images that are all filed are all removed. -/
theorem removeTransactionKeyimages_eq (id : Hash) :
    ∀ (vin : List TxIn) (index : Index KeyImage Hash), vin.all isToKey = true →
      (vin.filterMap keyImage?).Nodup →
      (∀ k ∈ vin.filterMap keyImage?, id ∈ index.ids k) →
      removeTransactionKeyimages id vin index =
        (true, dropAll id (vin.filterMap keyImage?) index)
  | [], index, _, _, _ => rfl
  | .gen _ :: rest, index, h, _, _ => by cases h
  | .toScript :: rest, index, h, _, _ => by cases h
  | .toScripthash :: rest, index, h, _, _ => by cases h
  | .toKey amount offsets k :: rest, index, hkind, hnodup, hmem => by
    have hkeys : (toKey amount offsets k :: rest).filterMap keyImage? =
        k :: rest.filterMap keyImage? := rfl
    rw [hkeys] at hnodup hmem ⊢
    rw [nodup_cons] at hnodup
    have hk : id ∈ index.ids k := hmem k mem_cons_self
    rw [removeTransactionKeyimages]
    cases hset : index k with
    | none =>
      rw [ids, hset] at hk
      exact absurd hk (Finset.notMem_empty id)
    | some set =>
      rw [ids, hset] at hk
      have hk' : id ∈ set := hk
      simp only []
      rw [if_neg (Finset.ne_empty_of_mem hk'), if_neg (not_not.mpr hk')]
      refine removeTransactionKeyimages_eq id rest (index.drop k id) ?_ hnodup.2 fun k' hk' => ?_
      · rw [all_cons, Bool.and_eq_true] at hkind
        exact hkind.2
      · have hne : k' ≠ k := by
          rintro rfl
          exact hnodup.1 hk'
        rw [ids_drop, if_neg hne]
        exact hmem k' (mem_cons_of_mem k hk')

/-- A transaction that fits can be inserted. -/
theorem Sound.insert (h : Sound [] m table) {sortedIds : List Hash}
    (hid : row.id ∉ table.map (·.id)) (hsorted : sortedIds.Perm (row.id :: m.sortedIds))
    (hindexable : row.tx.Indexable)
    (hfits : ∀ k ∈ row.tx.keyImages, Fits row.info.keptByBlock row.id m.spentKeyImages k) :
    Sound [] ⟨m.weight + UInt64.ofNat row.info.weight, sortedIds,
      addAll row.id row.tx.keyImages m.spentKeyImages⟩ (row :: table) where
  weight := by
    rw [tableWeight_cons, h.weight, Nat.add_comm, UInt64.ofNat_add]
  nodup := by
    rw [map_cons, nodup_cons]
    exact ⟨hid, h.nodup⟩
  sorted := by
    have hold := h.sorted
    rw [append_nil] at hold ⊢
    exact hsorted.trans (hold.cons row.id)
  index := (h.index.addAll row.id row.tx.keyImages).congr fun k id => spends_cons.symm
  once := by
    -- a key image of a row that is not kept by a block was free
    have hfree : ∀ a ∈ table, row.info.keptByBlock = false → ∀ k, k ∈ row.tx.keyImages →
        k ∉ a.tx.keyImages := by
      intro a ha hkept k hk hka
      rcases (hfits k hk).2 with hk' | hempty
      · rw [hkept] at hk'
        cases hk'
      · exact (h.index.ids_eq_empty_iff.mp hempty) a.id ⟨a, ha, rfl, hka⟩
    intro a ha b hb hkepta hkeptb k hka hkb
    rcases mem_cons.mp ha with rfl | hold
    · rcases mem_cons.mp hb with rfl | hold
      · rfl
      · exact absurd hkb (hfree b hold hkepta k hka)
    · rcases mem_cons.mp hb with rfl | hold'
      · exact absurd hka (hfree a hold hkeptb k hkb)
      · exact h.once a hold b hold' hkepta hkeptb k hka hkb
  indexable := by
    rw [forall_mem_cons]
    exact ⟨hindexable, h.indexable⟩

/-- A transaction of the table can be removed. -/
theorem Sound.remove (h : Sound (row.id :: gone) m table) (hrow : row ∈ table) :
    Sound gone ⟨m.weight - UInt64.ofNat row.info.weight, m.sortedIds,
        (removeTransactionKeyimages row.id row.tx.vin m.spentKeyImages).2⟩
      (table.filter fun r => decide (r.id ≠ row.id)) := by
  have hperm := Keyed.perm_cons_filter h.nodup hrow
  have h' := h.perm hperm
  have hnodup := h'.nodup
  rw [map_cons, nodup_cons] at hnodup
  have hremoved := removeTransactionKeyimages_eq row.id row.tx.vin m.spentKeyImages
    (h.indexable row hrow).inputs (h.indexable row hrow).keyImages fun k hk =>
      h.index.mem_ids.mpr ⟨row, hrow, rfl, hk⟩
  rw [hremoved]
  generalize table.filter (fun r => decide (r.id ≠ row.id)) = left at *
  refine ⟨⟨?_, hnodup.2, ?_, ?_⟩, ?_, ?_⟩
  · have hweight := h'.weight
    rw [tableWeight_cons, Nat.add_comm, UInt64.ofNat_add] at hweight
    simp only [hweight, UInt64.add_sub_cancel]
  · have hsorted := h'.sorted
    exact (perm_cons row.id).mp (perm_middle.symm.trans hsorted)
  · refine (h'.index.dropAll row.id row.tx.keyImages).congr fun k id => ?_
    rw [spends_cons]
    constructor
    · rintro ⟨hspends | hspends, hnot⟩
      · exact absurd hspends hnot
      · exact hspends
    · rintro ⟨a, ha, rfl, hk⟩
      refine ⟨.inr ⟨a, ha, rfl, hk⟩, fun hc => ?_⟩
      exact hnodup.1 (hc.2 ▸ mem_map_of_mem ha)
  · exact fun a ha b hb => h'.once a (mem_cons_of_mem _ ha) b (mem_cons_of_mem _ hb)
  · exact fun a ha => h'.indexable a (mem_cons_of_mem _ ha)

theorem Sound.mapInfo (h : Sound gone m table) {f : TxpoolRow → TxpoolTxMeta}
    (hweight : ∀ row ∈ table, (f row).weight = row.info.weight)
    (hkept : ∀ row ∈ table, (f row).keptByBlock = false → row.info.keptByBlock = false) :
    Sound gone m (table.map fun r => { r with info := f r }) := by
  have hids : (table.map fun r => { r with info := f r }).map (·.id) = table.map (·.id) := by
    rw [map_map]
    rfl
  refine ⟨⟨?_, ?_, ?_, ?_⟩, ?_, ?_⟩
  · rw [h.weight]
    refine congrArg UInt64.ofNat ?_
    clear h hids hkept
    induction table with
    | nil => rfl
    | cons row table ih =>
      rw [forall_mem_cons] at hweight
      rw [map_cons, tableWeight_cons, tableWeight_cons, ih hweight.2]
      simp only [hweight.1]
  · rw [hids]
    exact h.nodup
  · rw [hids]
    exact h.sorted
  · refine h.index.congr fun k id => ?_
    unfold Spends
    simp only [mem_map, exists_exists_and_eq_and]
  · intro a ha b hb hkepta hkeptb k hka hkb
    obtain ⟨a, hold, rfl⟩ := mem_map.mp ha
    obtain ⟨b, hold', rfl⟩ := mem_map.mp hb
    rw [h.once a hold b hold' (hkept a hold hkepta) (hkept b hold' hkeptb) k hka hkb]
  · intro a ha
    obtain ⟨a, hold, rfl⟩ := mem_map.mp ha
    exact h.indexable a hold

end Rows

namespace TxMemoryPool

/-- What the pool keeps in memory. -/
def memory (pool : TxMemoryPool) : PoolMemory :=
  ⟨pool.txpoolWeight, pool.txsByFeeAndReceiveTime.map (·.id), pool.spentKeyImages⟩

/-- The representation invariant of the pool. -/
structure RepInv (pool : TxMemoryPool) : Prop where
  describes : pool.memory.Describes pool.table
  once : SpentOnce pool.table

/-- The invariant the operations carry: all of it, and that the rows are such as the index takes. -/
def Kept (pool : TxMemoryPool) : Prop := Sound [] pool.memory pool.table

variable {pool left : TxMemoryPool} {row : TxpoolRow} {id : Hash} {tx : Transaction}
  {table : List TxpoolRow} {entries : List SortedTx} {m : PoolMemory} {e : SortedTx} {r : TxpoolRow}

theorem Kept.mem_ids_iff (h : pool.Kept) :
    id ∈ pool.txsByFeeAndReceiveTime.map (·.id) ↔ id ∈ pool.table.map (·.id) := by
  have hsorted := h.sorted
  rw [append_nil] at hsorted
  exact hsorted.mem_iff

theorem unsort {gone : List Hash} (h : Sound gone m table) {sortedIds : List Hash}
    (hperm : m.sortedIds.Perm (id :: sortedIds)) :
    Sound (id :: gone) { m with sortedIds } table :=
  { h with
    sorted := perm_middle.trans ((hperm.symm.append_right gone).trans h.sorted) }

theorem eraseSorted_perm (h : id ∈ entries.map (·.id)) :
    (entries.map (·.id)).Perm (id :: (eraseSorted id entries).map (·.id)) := by
  obtain ⟨e, he, hid⟩ := mem_map.mp h
  obtain ⟨a, l₁, l₂, -, ha, hsplit, herase⟩ :=
    exists_of_eraseP (p := fun e : SortedTx => decide (e.id = id)) he (decide_eq_true hid)
  rw [eraseSorted, herase, hsplit, map_append, map_cons, map_append,
    of_decide_eq_true ha]
  exact perm_middle

theorem Kept.remove (h : pool.Kept) (hrow : row ∈ pool.table)
    (hperm : (pool.txsByFeeAndReceiveTime.map (·.id)).Perm (row.id :: entries.map (·.id))) :
    Kept { pool.removeTx row with txsByFeeAndReceiveTime := entries } :=
  (unsort h hperm).remove hrow

theorem mem_removeTxpoolTx : r ∈ pool.removeTxpoolTx id ↔ r ∈ pool.table ∧ r.id ≠ id := by
  rw [removeTxpoolTx, mem_filter, decide_eq_true_iff]

/-- What the loop of `prune` leaves: all the rows only if the weight is within the limit or each
entry it comes to is kept by a block. -/
structure Pruned (bytes : ℕ) (rest : List SortedTx) (pool left : TxMemoryPool) : Prop where
  kept : left.Kept
  sublist : left.table <+ pool.table
  table_eq_iff : left.table = pool.table ↔ pool.txpoolWeight.toNat ≤ bytes ∨
    ∀ e ∈ rest, ∀ row ∈ pool.table, row.id = e.id → row.info.keptByBlock = true

/-- The loop of `prune` keeps the memory in step, and removes from the end. -/
theorem pruneFrom_pruned (bytes : ℕ) :
    ∀ (rest : List SortedTx) (changed : Bool) {pool : TxMemoryPool},
    pool.Kept → (∀ e ∈ rest, e ∈ pool.txsByFeeAndReceiveTime) → rest.Nodup →
    (pruneFrom bytes changed rest pool).1 = true ∧
      Pruned bytes rest pool (pruneFrom bytes changed rest pool).2.2
  | [], changed, pool, h, _, _ => ⟨rfl, h, .refl _, iff_of_true rfl (.inr (forall_mem_nil _))⟩
  | e :: rest, changed, pool, h, hmem, hnodup => by
    rw [nodup_cons] at hnodup
    have he := hmem e mem_cons_self
    obtain ⟨row, hrow, hid, hfind⟩ := h.find (h.mem_ids_iff.mp (mem_map_of_mem he))
    rw [pruneFrom]
    split
    · exact ⟨rfl, h, .refl _, iff_of_true rfl (.inl ‹_›)⟩
    · rename_i hover
      rw [show pool.find? e.id = some row from hfind]
      simp only []
      split
      · rename_i hkeeps
        have hrows : ∀ r ∈ pool.table, r.id = e.id → r.info.keptByBlock = true := by
          intro r hr hrid
          cases hfind.symm.trans ((Keyed.lookup_eq_some_iff h.nodup).mpr ⟨hr, hrid⟩)
          exact hkeeps
        obtain ⟨hok, hkept, hsub, heq⟩ := pruneFrom_pruned bytes rest changed h
          (fun e' he' => hmem e' (mem_cons_of_mem e he')) hnodup.2
        refine ⟨hok, hkept, hsub, ?_⟩
        rw [heq, forall_mem_cons, and_iff_right hrows]
      · rename_i hkeeps
        have hleft : Kept { pool.removeTx row with
            txsByFeeAndReceiveTime := pool.txsByFeeAndReceiveTime.erase e } :=
          h.remove hrow (hid ▸ (perm_cons_erase he).map _)
        have hmem' : ∀ e' ∈ rest, e' ∈ pool.txsByFeeAndReceiveTime.erase e := by
          intro e' he'
          have hne : e' ≠ e := by
            rintro rfl
            exact hnodup.1 he'
          exact (mem_erase_of_ne hne).mpr (hmem e' (mem_cons_of_mem e he'))
        obtain ⟨hok, hkept, hsub, -⟩ := pruneFrom_pruned bytes rest true hleft hmem' hnodup.2
        refine ⟨hok, hkept, hsub.trans filter_sublist, iff_of_false (fun heq => ?_) ?_⟩
        · exact (mem_removeTxpoolTx.mp (hsub.subset (heq ▸ hrow))).2 rfl
        · rintro (hle | hall)
          · exact hover hle
          · exact hkeeps (hall e mem_cons_self row hrow hid)

theorem Kept.pruneFrom (h : pool.Kept) (bytes : ℕ)
    (hsub : entries <+ pool.txsByFeeAndReceiveTime.tail.reverse) :
    (pruneFrom bytes false entries pool).1 = true ∧
      Pruned bytes entries pool (pruneFrom bytes false entries pool).2.2 := by
  have hnodup : pool.txsByFeeAndReceiveTime.Nodup := by
    have hsorted := h.sorted
    rw [append_nil] at hsorted
    exact (hsorted.nodup_iff.mpr h.nodup).of_map
  exact pruneFrom_pruned bytes entries false h
    (fun e he => mem_of_mem_tail (mem_reverse.mp (hsub.subset he)))
    ((nodup_reverse.mpr (hnodup.sublist (tail_sublist _))).sublist hsub)

theorem Kept.prune (h : pool.Kept) (bytes : ℕ) (nested : Bool) :
    (pool.prune bytes nested).Kept ∧ (pool.prune bytes nested).table <+ pool.table := by
  obtain ⟨hok, hleft⟩ := h.pruneFrom (if bytes = 0 then pool.txpoolMaxWeight else bytes) (.refl _)
  unfold TxMemoryPool.prune
  simp only []
  rw [if_pos hok]
  exact ⟨hleft.kept, hleft.sublist⟩

/-- `take_tx` removes one transaction. -/
theorem Kept.takeTx (h : pool.Kept) (htake : pool.takeTx id = some (row, left)) :
    left.Kept ∧ row ∈ pool.table ∧ row.id = id ∧
      ∀ r, r ∈ left.table ↔ r ∈ pool.table ∧ r.id ≠ id := by
  obtain ⟨row', hfind, heq⟩ := Option.map_eq_some_iff.mp htake
  obtain ⟨rfl, rfl⟩ := Prod.mk.inj heq
  obtain ⟨hrow, rfl⟩ := (Keyed.lookup_eq_some_iff h.nodup).mp hfind
  have hid := h.mem_ids_iff.mpr (mem_map_of_mem hrow)
  exact ⟨h.remove hrow (eraseSorted_perm hid), hrow, rfl, fun r => mem_removeTxpoolTx⟩

theorem Kept.markDoubleSpend (h : pool.Kept) (tx : Transaction) :
    (pool.markDoubleSpend tx).Kept := by
  refine h.mapInfo (fun r _ => ?_) fun r _ => ?_
  · split <;> rfl
  · split <;> exact id

theorem Kept.setRelayed (h : pool.Kept) (now : UInt64) (ids : List Hash) :
    (pool.setRelayed now ids).Kept := by
  refine h.mapInfo (fun r _ => ?_) fun r _ => ?_
  · split <;> rfl
  · split <;> exact id

theorem emplace_perm (h : e.id ∉ entries.map (·.id)) :
    ((emplace e entries).map (·.id)).Perm (e.id :: entries.map (·.id)) := by
  rw [emplace, if_neg fun hmem => h (mem_map_of_mem hmem)]
  exact (perm_orderedInsert _ e entries).map _

/-- What the callers of `add_tx` see to. -/
structure Addable (pool : TxMemoryPool) (tx : Transaction) (id : Hash) : Prop where
  fresh : id ∉ pool.table.map (·.id)
  keyImages : tx.keyImages.Nodup

/-- The pool with the row in each container, before it is pruned. -/
def added (rate : UInt64 → ℕ → ℕ) (pool : TxMemoryPool) (row : TxpoolRow) (receiveTime : UInt64) :
    TxMemoryPool :=
  { pool with
    table := row :: pool.table
    spentKeyImages := addAll row.id row.tx.keyImages pool.spentKeyImages
    txsByFeeAndReceiveTime := emplace ⟨rate row.info.fee (if row.info.weight = 0 then 1
      else row.info.weight), receiveTime, row.id⟩ pool.txsByFeeAndReceiveTime
    txpoolWeight := pool.txpoolWeight + UInt64.ofNat row.info.weight
    cookie := pool.cookie + 2 }

section Store

variable (row) (h : pool.Kept) (hadd : pool.Addable row.tx row.id)
  (hinputs : checkInputsTypesSupported row.tx = true)
  (hfree : row.info.keptByBlock = true ∨ ∀ k ∈ row.tx.keyImages, pool.spentKeyImages.ids k = ∅)

include h hadd hfree

theorem Kept.fits : ∀ k ∈ row.tx.keyImages,
    Fits row.info.keptByBlock row.id pool.spentKeyImages k := by
  refine fun k hk => ⟨fun hc => ?_, hfree.imp id fun hempty => hempty k hk⟩
  obtain ⟨r, hr, hid, -⟩ := h.index.mem_ids.mp hc
  exact hadd.fresh (hid ▸ mem_map_of_mem hr)

include hinputs

theorem Kept.insertKeyImages_eq :
    insertKeyImages row.info.keptByBlock row.id row.tx.vin pool.spentKeyImages =
      (true, addAll row.id row.tx.keyImages pool.spentKeyImages) :=
  (insertKeyImages_eq_true_iff _ _ _ _ _).mpr
    ⟨hinputs, hadd.keyImages, h.fits row hadd hfree, rfl⟩

theorem Kept.store_eq (rate : UInt64 → ℕ → ℕ) (receiveTime : UInt64) (nested : Bool) :
    pool.store rate row receiveTime nested =
      (.ok (), (pool.added rate row receiveTime).prune pool.txpoolMaxWeight nested) := by
  have htable : pool.removeTxpoolTx row.id = pool.table := by
    rw [removeTxpoolTx, filter_eq_self]
    exact fun r hr => decide_eq_true fun hc => hadd.fresh (hc ▸ mem_map_of_mem hr)
  unfold TxMemoryPool.store
  rw [h.insertKeyImages_eq row hadd hinputs hfree]
  simp only [htable]
  rfl

theorem Kept.added (rate : UInt64 → ℕ → ℕ) (receiveTime : UInt64) :
    (pool.added rate row receiveTime).Kept := by
  have hnew : row.id ∉ pool.txsByFeeAndReceiveTime.map (·.id) := fun hc =>
    hadd.fresh (h.mem_ids_iff.mp hc)
  exact h.insert hadd.fresh (emplace_perm (e := ⟨_, receiveTime, row.id⟩) hnew)
    ⟨hinputs, hadd.keyImages⟩ (h.fits row hadd hfree)

/-- Storing a transaction that fits, with the pruning after it. -/
theorem Kept.store (rate : UInt64 → ℕ → ℕ) (receiveTime : UInt64) (nested : Bool) :
    (pool.store rate row receiveTime nested).2.Kept ∧
      ∀ r ∈ (pool.store rate row receiveTime nested).2.table, r = row ∨ r ∈ pool.table := by
  rw [h.store_eq row hadd hinputs hfree]
  obtain ⟨hkept, hsub⟩ := (h.added row hadd hinputs hfree rate receiveTime).prune
    pool.txpoolMaxWeight nested
  exact ⟨hkept, fun r hr => mem_cons.mp (hsub.subset hr)⟩

end Store

theorem Kept.free_of_not_spent (h : pool.Kept) (hspent : ¬pool.haveTxKeyimgesAsSpent tx = true) :
    ∀ k ∈ tx.keyImages, pool.spentKeyImages.ids k = ∅ := by
  intro k hk
  obtain ⟨input, hinput, hkey⟩ := mem_filterMap.mp hk
  have hnot : ¬(pool.spentKeyImages k).isSome = true := by
    intro hsome
    refine hspent (any_eq_true.mpr ⟨input, hinput, ?_⟩)
    cases input with
    | toKey amount offsets k' =>
      obtain rfl : k' = k := Option.some.inj hkey
      exact hsome
    | _ => cases hkey
  have hindex : pool.spentKeyImages.Describes (Spends pool.table) := h.index
  rw [hindex.isSome_iff, not_exists] at hnot
  exact hindex.ids_eq_empty_iff.mpr hnot

/-- `add_tx` keeps the memory in step, whatever it returns. -/
theorem Kept.addTx (h : pool.Kept) (ce : ChainEnv) (bc : Blockchain) (txWeight : ℕ)
    (keptByBlock relayed doNotRelay : Bool) (version : ℕ) (nested : Bool)
    (hadd : pool.Addable tx id) :
    (pool.addTx ce bc tx id txWeight keptByBlock relayed doNotRelay version nested).2.Kept ∧
      ((pool.addTx ce bc tx id txWeight keptByBlock relayed doNotRelay version nested).1 = .ok () →
        ∀ r ∈
          (pool.addTx ce bc tx id txWeight keptByBlock relayed doNotRelay version nested).2.table,
          (r.id = id → r.info.weight = txWeight ∧ r.info.keptByBlock = keptByBlock) ∧
          (r.id ≠ id → r ∈ pool.table)) := by
  -- whatever row is stored, it has the id, the weight and the flag
  have hstored : ∀ info : TxpoolTxMeta, info.weight = txWeight → info.keptByBlock = keptByBlock →
      checkInputsTypesSupported tx = true →
      (keptByBlock = true ∨ ∀ k ∈ tx.keyImages, pool.spentKeyImages.ids k = ∅) →
      (pool.store ce.feeRate ⟨id, tx, info⟩ ce.now nested).2.Kept ∧
        ∀ r ∈ (pool.store ce.feeRate ⟨id, tx, info⟩ ce.now nested).2.table,
          (r.id = id → r.info.weight = txWeight ∧ r.info.keptByBlock = keptByBlock) ∧
          (r.id ≠ id → r ∈ pool.table) := by
    intro info hweight hkept hinputs hfree
    obtain ⟨hkeeps, hsub⟩ := h.store ⟨id, tx, info⟩ hadd hinputs
      (hfree.imp hkept.trans fun hempty => hempty) ce.feeRate ce.now nested
    refine ⟨hkeeps, fun r hr => ?_⟩
    rcases hsub r hr with rfl | hold
    · exact ⟨fun _ => ⟨hweight, hkept⟩, fun hne => absurd rfl hne⟩
    · exact ⟨fun hid => absurd (hid ▸ mem_map_of_mem hold) hadd.fresh, fun _ => hold⟩
  unfold TxMemoryPool.addTx
  cases hchecks : addTxChecks ce.toEnv bc pool.timedOutTransactions (pool.haveTxKeyimgesAsSpent tx)
      tx id txWeight keptByBlock version with
  | error flag =>
    simp only []
    refine ⟨?_, fun hc => by cases hc⟩
    split
    · exact h.markDoubleSpend tx
    · exact h
  | ok _ =>
    simp only [addTxChecks, bind_eq_ok, exists_unit, require_eq_ok] at hchecks
    obtain ⟨-, -, hinputs, -, -, -, hspent, -⟩ := hchecks
    have hfree := hspent.imp (fun hkept => hkept) h.free_of_not_spent
    cases checkTxInputsFor ce.toEnv bc tx with
    | none =>
      simp only []
      split
      · refine (hstored _ ?_ ?_ hinputs hfree).imp_right fun hrows _ => hrows
        · rfl
        · rfl
      · exact ⟨h, fun hc => by cases hc⟩
    | some used =>
      refine (hstored _ ?_ ?_ hinputs hfree).imp_right fun hrows _ => hrows
      · rfl
      · rfl

theorem unsortAll : ∀ (rows : List TxpoolRow)
    {gone : List Hash} {entries : List SortedTx},
    Sound gone { m with sortedIds := entries.map (·.id) } table →
    (rows.map (·.id)).Nodup → (∀ r ∈ rows, r.id ∈ entries.map (·.id)) →
    Sound ((rows.map (·.id)).reverse ++ gone)
      { m with sortedIds := (rows.foldl (fun l r => eraseSorted r.id l) entries).map (·.id) } table
  | [], _, _, h, _, _ => h
  | row :: rows, gone, entries, h, hnodup, hmem => by
    rw [map_cons, nodup_cons] at hnodup
    have hperm := eraseSorted_perm (hmem row mem_cons_self)
    have hstep := unsort h hperm
    rw [map_cons, reverse_cons, append_assoc]
    refine unsortAll rows hstep hnodup.2 fun r hr => ?_
    have hid := hperm.mem_iff.mp (hmem r (mem_cons_of_mem row hr))
    rcases mem_cons.mp hid with heq | hid
    · exact absurd (heq ▸ mem_map_of_mem hr) hnodup.1
    · exact hid

theorem removeAll : ∀ (rows : List TxpoolRow) {gone : List Hash} {pool : TxMemoryPool},
    Sound gone pool.memory pool.table → gone.Perm (rows.map (·.id)) → (rows.map (·.id)).Nodup →
    (∀ r ∈ rows, r ∈ pool.table) → (rows.foldl removeTx pool).Kept
  | [], gone, pool, h, hperm, _, _ => by
    rw [map_nil, perm_nil] at hperm
    rw [hperm] at h
    exact h
  | row :: rows, gone, pool, h, hperm, hnodup, hmem => by
    rw [map_cons, nodup_cons] at hnodup
    have hstep : Sound (rows.map (·.id)) (pool.removeTx row).memory (pool.removeTx row).table := by
      have hrow : Sound (row.id :: rows.map (·.id)) pool.memory pool.table :=
        { h with sorted := (hperm.symm.append_left _).trans h.sorted }
      exact hrow.remove (hmem row mem_cons_self)
    refine removeAll rows hstep (List.Perm.refl _) hnodup.2 fun r hr => ?_
    refine mem_removeTxpoolTx.mpr ⟨hmem r (mem_cons_of_mem row hr), fun heq => ?_⟩
    exact hnodup.1 (heq ▸ mem_map_of_mem hr)

/-- `remove_stuck_transactions` keeps the memory in step. -/
theorem Kept.removeStuckTransactions (h : pool.Kept) (rank : Hash → ℕ) (now : UInt64) :
    (pool.removeStuckTransactions rank now).Kept := by
  unfold TxMemoryPool.removeStuckTransactions
  simp only []
  split
  · exact h
  · have hmem : ∀ r ∈ (pool.inKeyOrder rank).filter (isStuck now), r ∈ pool.table := fun r hr =>
      (mem_insertionSort _).mp (mem_of_mem_filter hr)
    have hnodup : (((pool.inKeyOrder rank).filter (isStuck now)).map (·.id)).Nodup := by
      refine List.Nodup.sublist (filter_sublist.map _) ?_
      exact ((perm_insertionSort _ pool.table).map _).nodup_iff.mpr h.nodup
    generalize (pool.inKeyOrder rank).filter (isStuck now) = stuck at hmem hnodup
    have hstart : Sound [] { pool.memory with
        sortedIds := pool.txsByFeeAndReceiveTime.map (·.id) } pool.table := h
    have hunsorted := unsortAll stuck hstart hnodup fun r hr =>
      h.mem_ids_iff.mpr (mem_map_of_mem (hmem r hr))
    rw [append_nil] at hunsorted
    have hleft : Kept (stuck.foldl removeTx { pool with
        txsByFeeAndReceiveTime :=
          stuck.foldl (fun l row => eraseSorted row.id l) pool.txsByFeeAndReceiveTime
        timedOutTransactions := stuck.map (·.id) ++ pool.timedOutTransactions }) :=
      removeAll stuck hunsorted (reverse_perm _) hnodup hmem
    exact hleft

theorem Kept.revalidate (h : pool.Kept) (ce : ChainEnv) (bc : Blockchain) (version : ℕ)
    (row : TxpoolRow) : (pool.revalidate ce bc version row).2.Kept := by
  unfold TxMemoryPool.revalidate
  cases htake : pool.takeTx row.id with
  | none => exact h
  | some r =>
    obtain ⟨taken, left⟩ := r
    obtain ⟨hleft, htaken, hid, hrows⟩ := h.takeTx htake
    have hadd : left.Addable taken.tx row.id := by
      refine ⟨fun hc => ?_, (h.indexable taken htaken).keyImages⟩
      obtain ⟨r, hr, hrid⟩ := mem_map.mp hc
      exact ((hrows r).mp hr).2 hrid
    simp only []
    obtain ⟨hkept, hstored⟩ := hleft.addTx ce bc row.info.weight false taken.info.relayed
      taken.info.doNotRelay version true hadd
    split
    · rename_i heq
      rw [heq] at hkept
      exact hkept
    · rename_i added heq
      rw [heq] at hkept hstored
      have hrow := hstored rfl
      refine hkept.mapInfo (fun r hr => ?_) fun r hr => ?_
      · split
        · exact ((hrow r hr).1 ‹_›).1.symm
        · rfl
      · split
        · exact fun _ => ((hrow r hr).1 ‹_›).2
        · exact id

/-- `validate` keeps the memory in step. -/
theorem Kept.validate (h : pool.Kept) (ce : ChainEnv) (bc : Blockchain) (version : ℕ) :
    (pool.validate ce bc version).Kept := by
  have hfold : ∀ (rows : List TxpoolRow) (s : Bool × TxMemoryPool), s.2.Kept →
      (rows.foldl (fun s row =>
        let turn := s.2.revalidate ce bc version row
        (s.1 || turn.1, turn.2)) s).2.Kept := by
    intro rows
    induction rows with
    | nil => exact fun _ => id
    | cons row rows ih => exact fun s hs => ih _ (hs.revalidate ce bc version row)
  exact hfold _ (false, pool) h

theorem initPass_sound (rate : UInt64 → ℕ → ℕ) : ∀ (rows done : List TxpoolRow)
    {pool pool' : TxMemoryPool}, initPass rate rows pool = some pool' →
    Sound [] pool.memory done → ((rows ++ done).map (·.id)).Nodup →
    Sound [] pool'.memory (rows.reverse ++ done) ∧ pool'.table = pool.table
  | [], done, pool, pool', h, hsound, _ => by
    cases h
    exact ⟨hsound, rfl⟩
  | row :: rows, done, pool, pool', h, hsound, hnodup => by
    rw [initPass] at h
    rw [cons_append, map_cons, nodup_cons, map_append] at hnodup
    have hnew : row.id ∉ done.map (·.id) := fun hc => hnodup.1 (mem_append_right _ hc)
    have hsorted : row.id ∉ pool.txsByFeeAndReceiveTime.map (·.id) := fun hc =>
      hnew (hsound.sorted.mem_iff.mp (mem_append_left [] hc))
    split at h
    · cases h
    · rename_i index hins
      obtain ⟨hinputs, hkeys, hfits, rfl⟩ := (insertKeyImages_eq_true_iff _ _ _ _ _).mp hins
      have hstep := hsound.insert hnew (emplace_perm (e := ⟨rate row.info.fee row.info.weight,
        row.info.receiveTime, row.id⟩) hsorted) ⟨hinputs, hkeys⟩ hfits
      have hperm : ((rows ++ row :: done).map (·.id)).Perm
          (row.id :: (rows.map (·.id) ++ done.map (·.id))) := by
        rw [map_append]
        exact perm_middle
      obtain ⟨hrest, htable⟩ := initPass_sound rate rows (row :: done) h hstep
        (hperm.nodup_iff.mpr (nodup_cons.mpr hnodup))
      rw [reverse_cons, append_assoc]
      exact ⟨hrest, htable⟩

/-- `init` builds the memory from the table. -/
theorem init_kept {ce : ChainEnv} {maxTxpoolWeight : ℕ} (hkeys : (table.map (·.id)).Nodup)
    (h : init ce maxTxpoolWeight table = some pool) : pool.Kept := by
  unfold init at h
  generalize hstart : ({ table, txpoolMaxWeight := if maxTxpoolWeight = 0 then
    defaultTxpoolMaxWeight else maxTxpoolWeight } : TxMemoryPool) = start at h
  obtain ⟨first, hfirst, hsecond⟩ := Option.bind_eq_some_iff.mp h
  have htable : start.table = table := hstart ▸ rfl
  have hrows : (start.inKeyOrder ce.keyRank).Perm table := htable ▸ perm_insertionSort _ _
  have hsplit := (filter_append_perm (fun r : TxpoolRow => !r.info.keptByBlock)
    (start.inKeyOrder ce.keyRank))
  simp only [Bool.not_not] at hsplit
  have hnothing : Sound [] start.memory [] := by
    subst hstart
    refine ⟨⟨rfl, nodup_nil, List.Perm.refl _, ?_⟩, forall_mem_nil _, forall_mem_nil _⟩
    exact describes_empty.congr fun k id => iff_of_false (fun hc => hc) fun ⟨r, hr, _⟩ =>
      not_mem_nil hr
  have hnodup : (((start.inKeyOrder ce.keyRank).filter (fun r => !r.info.keptByBlock) ++
      (start.inKeyOrder ce.keyRank).filter fun r => r.info.keptByBlock).map (·.id)).Nodup :=
    ((hsplit.trans hrows).map _).nodup_iff.mpr hkeys
  generalize (start.inKeyOrder ce.keyRank).filter (fun r => !r.info.keptByBlock) = relayed at *
  generalize (start.inKeyOrder ce.keyRank).filter (fun r => r.info.keptByBlock) = kept at *
  obtain ⟨hsound₁, htable₁⟩ := initPass_sound ce.feeRate relayed [] hfirst hnothing (by
    rw [append_nil]
    rw [map_append] at hnodup
    exact hnodup.of_append_left)
  have hdone : (kept ++ (relayed.reverse ++ [])).Perm (relayed ++ kept) := by
    rw [append_nil]
    exact perm_append_comm.trans ((reverse_perm relayed).append_right kept)
  obtain ⟨hsound₂, htable₂⟩ := initPass_sound ce.feeRate kept _ hsecond hsound₁
    ((hdone.map _).nodup_iff.mpr hnodup)
  unfold Kept
  rw [htable₂, htable₁, htable]
  refine hsound₂.perm (((reverse_perm kept).append_right _).trans ?_)
  exact hdone.trans (hsplit.trans hrows)

/-- Where a step of `prune` fails, the memory still describes the table if a batch was open, or if
nothing had been removed. -/
theorem pruneFailing_describes_iff (h : pool.Kept) (bytes : ℕ) (nested : Bool) (n : ℕ) :
    (pool.pruneFailing bytes nested n).memory.Describes (pool.pruneFailing bytes nested n).table ↔
      nested = true ∨
        pool.txpoolWeight.toNat ≤ (if bytes = 0 then pool.txpoolMaxWeight else bytes) ∨
        ∀ e ∈ pool.txsByFeeAndReceiveTime.tail.reverse.take n,
          ∀ row ∈ pool.table, row.id = e.id → row.info.keptByBlock = true := by
  obtain ⟨-, hleft⟩ := h.pruneFrom (if bytes = 0 then pool.txpoolMaxWeight else bytes)
    (take_sublist n _)
  rw [← hleft.table_eq_iff]
  unfold pruneFailing
  cases nested with
  | true => exact iff_of_true hleft.kept.toDescribesBut (.inl rfl)
  | false =>
    constructor
    · intro hdescribes
      -- the container has an entry for each row of either table
      have hlength := hleft.kept.sorted.length_eq.symm.trans hdescribes.sorted.length_eq
      rw [length_map, length_map] at hlength
      exact .inr (hleft.sublist.eq_of_length hlength)
    · rintro (hc | heq)
      · cases hc
      · rw [← heq]
        exact hleft.kept.toDescribesBut

def looseRow (id : Hash) : TxpoolRow :=
  ⟨id, { bulletproofTx with vin := [.toKey 0 [] id] },
    { weight := 80, fee := 0, receiveTime := 0, keptByBlock := false, relayed := true,
      doNotRelay := false, pruned := false }⟩

def threeLoose : TxMemoryPool := (init paidEnv 0 [looseRow 1, looseRow 2, looseRow 3]).getD {}

theorem threeLoose_kept : threeLoose.Kept := by
  have hinit : init paidEnv 0 [looseRow 1, looseRow 2, looseRow 3] = some threeLoose := rfl
  exact init_kept (by decide) hinit

theorem pruneFailing_describes_first :
    (threeLoose.pruneFailing 1 false 0).memory.Describes
      (threeLoose.pruneFailing 1 false 0).table :=
  (pruneFailing_describes_iff threeLoose_kept 1 false 0).mpr (.inr (.inr (forall_mem_nil _)))

/-- The second step fails: the row removed first is back, its entry is not. -/
theorem pruneFailing_second_not_describes : threeLoose.Kept ∧
    ¬(threeLoose.pruneFailing 1 false 1).memory.Describes
      (threeLoose.pruneFailing 1 false 1).table := by
  refine ⟨threeLoose_kept, fun h => ?_⟩
  exact absurd h.sorted.length_eq (by decide)

/-- What the callers of the pool see to: a transaction that is added is new to the pool and has no
key image twice, and an empty pool is not pruned. -/
def Contract (pool : TxMemoryPool) : PoolOp → Prop
  | .addTx tx id .. => pool.Addable tx id
  | .prune .. => pool.txsByFeeAndReceiveTime ≠ []
  | _ => True

/-- The pools reached from `init` by operations that `C` allows, each at its own time and on its own
chain. -/
inductive Reachable (C : TxMemoryPool → PoolOp → Prop) : TxMemoryPool → Prop
  | init (ce : ChainEnv) (maxTxpoolWeight : ℕ) (table : List TxpoolRow) {pool : TxMemoryPool}
      (hkeys : (table.map (·.id)).Nodup) (h : init ce maxTxpoolWeight table = some pool) :
      Reachable C pool
  | step {pool : TxMemoryPool} (ce : ChainEnv) (bc : Blockchain) (op : PoolOp)
      (h : Reachable C pool) (hC : C pool op) : Reachable C (pool.apply ce bc op)

/-- Every operation keeps the memory in step. -/
theorem Kept.apply {pool : TxMemoryPool} (h : pool.Kept) (ce : ChainEnv) (bc : Blockchain)
    {op : PoolOp} (hC : pool.Contract op) : (pool.apply ce bc op).Kept := by
  cases op with
  | addTx tx id txWeight keptByBlock relayed doNotRelay version nested =>
    exact (h.addTx ce bc txWeight keptByBlock relayed doNotRelay version nested hC).1
  | takeTx id =>
    have happly : pool.apply ce bc (.takeTx id) = ((pool.takeTx id).map (·.2)).getD pool := rfl
    rw [happly]
    cases htake : pool.takeTx id with
    | none => exact h
    | some r => exact (h.takeTx htake).1
  | prune bytes nested => exact (h.prune bytes nested).1
  | removeStuckTransactions => exact h.removeStuckTransactions ce.keyRank ce.now
  | validate version => exact h.validate ce bc version
  | markDoubleSpend tx => exact h.markDoubleSpend tx
  | setRelayed ids => exact h.setRelayed ce.now ids

/-- The representation invariant holds in every pool that is reached within the contract. -/
theorem repInv_of_reachable (pool : TxMemoryPool) (h : Reachable Contract pool) : pool.RepInv := by
  have hkept : pool.Kept := by
    induction h with
    | init _ _ _ hkeys h => exact init_kept hkeys h
    | step ce bc op _ hC ih => exact ih.apply ce bc hC
  exact ⟨hkept.toDescribesBut, hkept.once⟩

/-- A transaction of a block comes to the empty pool. -/
theorem repInv_of_reachable_one :
    RepInv (apply paidEnv (testnetNode []).bc {}
      (.addTx bulletproofTx 1 80 true true false 1 false)) :=
  repInv_of_reachable _ (.step paidEnv _ _ (.init paidEnv 0 [] nodup_nil rfl)
    ⟨not_mem_nil, by decide⟩)

def spendsTwice : Transaction := { bulletproofTx with vin := [.toKey 0 [] 7, .toKey 0 [] 7] }

def afterSpendsTwice : TxMemoryPool :=
  apply paidEnv (testnetNode []).bc {} (.addTx spendsTwice 1 80 true true false 1 false)

/-- The transaction is refused and its row rolled back, but its id stays in the index. -/
theorem afterSpendsTwice_not_repInv :
    Reachable (fun _ _ => True) afterSpendsTwice ∧ ¬afterSpendsTwice.RepInv := by
  refine ⟨.step paidEnv _ _ (.init paidEnv 0 [] nodup_nil rfl) trivial, fun h => ?_⟩
  have hid : 1 ∈ afterSpendsTwice.spentKeyImages.ids 7 := by decide
  obtain ⟨row, hrow, -⟩ := h.describes.index.mem_ids.mp hid
  exact not_mem_nil hrow

end TxMemoryPool

end Nerva
