import Nerva.BlockCache
import Nerva.Lib.Runs

/-!
# The block cache and the chain it was copied from

While a batch is open there are two chains, the committed one and the writer's. The cache is kept to
the writer's, and a reader's `build_block_cache` keeps it there when the rows it copies are in both.
After an abort it is the committed chain's only where the two agree below the cache's height.
-/

namespace Nerva

namespace BlockCache

section Build

variable (blockInfo : ℕ → Option BlockRow)

theorem fill_rows_of_lt : ∀ (n index : ℕ) (rows : ℕ → BlockRow) {i : ℕ}, i < index →
    (fill blockInfo n index rows).2 i = rows i
  | 0, _, _, _, _ => rfl
  | n + 1, index, rows, i, hi => by
    unfold fill
    cases blockInfo index with
    | none => rfl
    | some row =>
      rw [fill_rows_of_lt n (index + 1) _ (by omega), if_neg (by omega)]

theorem fill_isTrue_iff : ∀ (n index : ℕ) (rows : ℕ → BlockRow),
    (fill blockInfo n index rows).1 = true ↔ ∀ i < index + n, index ≤ i → (blockInfo i).isSome
  | 0, index, rows => by
    simp only [fill, true_iff]
    intro i hlt hle
    omega
  | n + 1, index, rows => by
    unfold fill
    constructor
    · intro h i hlt hle
      cases hrow : blockInfo index with
      | none => simp [hrow] at h
      | some row =>
        simp only [hrow] at h
        rcases Nat.eq_or_lt_of_le hle with rfl | hlt'
        · simp [hrow]
        · exact (fill_isTrue_iff n (index + 1) _).1 h i (by omega) hlt'
    · intro h
      obtain ⟨row, hrow⟩ := Option.isSome_iff_exists.1 (h index (by omega) (Nat.le_refl index))
      simp only [hrow]
      exact (fill_isTrue_iff n (index + 1) _).2 fun i hlt hle => h i (by omega) (by omega)

/-- What has been filled is from the database. -/
theorem fill_rows : ∀ (n index : ℕ) (rows : ℕ → BlockRow),
    (fill blockInfo n index rows).1 = true → ∀ i < index + n, index ≤ i →
      blockInfo i = some ((fill blockInfo n index rows).2 i)
  | 0, _, _, _, _, _, _ => by omega
  | n + 1, index, rows, h, i, hlt, hle => by
    unfold fill at h ⊢
    cases hrow : blockInfo index with
    | none => simp [hrow] at h
    | some row =>
      simp only [hrow] at h ⊢
      rcases Nat.eq_or_lt_of_le hle with rfl | hlt'
      · rw [fill_rows_of_lt blockInfo n (index + 1) _ (by omega), if_pos rfl, hrow]
      · exact fill_rows n (index + 1) _ h i (by omega) hlt'

variable (cache : BlockCache) (height : ℕ)

/-- Rows below the old height are kept, those above come from the database. -/
theorem build_rows :
    (∀ i < cache.height, (cache.build blockInfo height).2.rows i = cache.rows i) ∧
      ∀ i < (cache.build blockInfo height).2.height, cache.height ≤ i →
        blockInfo i = some ((cache.build blockInfo height).2.rows i) := by
  unfold build
  split_ifs with hle
  · refine ⟨fun _ _ => rfl, fun i hlt hge => ?_⟩
    simp only at hlt
    omega
  · have hn : cache.height + (height - cache.height) = height := by omega
    have hold : ∀ i < cache.height,
        (fill blockInfo (height - cache.height) cache.height cache.rows).2 i = cache.rows i :=
      fun i => fill_rows_of_lt blockInfo _ _ _
    have hnew := fill_rows blockInfo (height - cache.height) cache.height cache.rows
    rw [hn] at hnew
    rcases hfill : fill blockInfo (height - cache.height) cache.height cache.rows with ⟨_ | _, rows⟩
    · simp only [hfill] at hold ⊢
      refine ⟨hold, fun i hlt hge => ?_⟩
      omega
    · simp only [hfill, true_implies] at hold hnew ⊢
      exact ⟨hold, hnew⟩

theorem build_height (source : List BlockRow) :
    (cache.build (source[·]?) height).2.height =
      if cache.height < height ∧ height ≤ source.length then height else cache.height := by
  unfold build
  by_cases hle : height ≤ cache.height
  · rw [if_pos hle, if_neg (by omega)]
  · have hiff := fill_isTrue_iff (source[·]?) (height - cache.height) cache.height cache.rows
    rw [show cache.height + (height - cache.height) = height by omega] at hiff
    have hlen :
        (∀ i < height, cache.height ≤ i → (source[i]?).isSome) ↔ height ≤ source.length := by
      simp only [isSome_getElem?]
      constructor
      · intro h
        have := h (height - 1) (by omega) (by omega)
        omega
      · intro h i hlt _
        omega
    rw [if_neg hle]
    rcases hfill : fill (source[·]?) (height - cache.height) cache.height cache.rows with
      ⟨_ | _, rows⟩
    all_goals
      simp only [hfill, hlen] at hiff
      simp at hiff
      simp
      omega

end Build

variable {cache : BlockCache} {chain : List BlockRow}

/-- The cache is extended from the rows of `source`. It stays with `chain` exactly when the rows
that are copied are those of `chain`. -/
theorem build_agrees_iff (source : List BlockRow) (height : ℕ) (h : cache.Agrees chain) :
    (cache.build (source[·]?) height).2.Agrees chain ↔
      (height ≤ source.length → ∀ i < height, cache.height ≤ i → chain[i]? = source[i]?) := by
  obtain ⟨hold, hnew⟩ := build_rows (source[·]?) cache height
  have hheight := build_height cache height source
  constructor
  · intro h' hlen i hlt hge
    rw [if_pos (by omega)] at hheight
    rw [h' i (by omega), hnew i (by omega) hge]
  · intro hsame i hlt
    rcases Nat.lt_or_ge i cache.height with hi | hi
    · rw [hold i hi, h i hi]
    · split_ifs at hheight with hext
      · rw [← hnew i hlt hi, hsame hext.2 i (by omega) hi]
      · omega

theorem lower_agrees_iff (height : ℕ) : (cache.lower height).Agrees chain ↔
    ∀ i < cache.height, i < height → chain[i]? = some (cache.rows i) := by
  unfold lower
  split_ifs with hlt
  · exact ⟨fun h i _ hi => h i hi, fun h i hi => h i (by simp only at hi; omega) hi⟩
  · exact ⟨fun h i hi _ => h i hi, fun h i hi => h i hi (by omega)⟩

theorem Agrees.append (h : cache.Agrees chain) (rows : List BlockRow) :
    cache.Agrees (chain ++ rows) := by
  intro i hi
  have hrow := h i hi
  rw [List.getElem?_append_left (List.getElem?_eq_some_iff.1 hrow).1, hrow]

end BlockCache

namespace CacheDb

/-- What keeps the cache to the writer's chain: a reader that extends it copies only blocks which
the open batch has at the same heights, and a batch that is given up leaves no entry below the
committed height that the batch had replaced. A commit that fails must leave no entry above it
either. -/
def Safe (db : CacheDb) : CacheOp → Prop
  | .readerBuild height => height ≤ db.committed.length →
      ∀ i < height, db.cache.height ≤ i → db.chain[i]? = db.committed[i]?
  | .batchAbort => ∀ i < db.cache.height, i < db.committed.length → db.chain[i]? = db.committed[i]?
  | .batchStop false => ∀ i < db.cache.height, db.chain[i]? = db.committed[i]?
  | _ => True

instance (db : CacheDb) : (op : CacheOp) → Decidable (db.Safe op)
  | .readerBuild height => inferInstanceAs (Decidable (height ≤ _ → ∀ i < height, _ → _ = _))
  | .batchAbort => inferInstanceAs (Decidable (∀ i < db.cache.height, _ → _ = _))
  | .batchStop false => inferInstanceAs (Decidable (∀ i < db.cache.height, _ = _))
  | .batchStop true | .batchStart | .addBlock _ | .removeBlock | .writerBuild _ =>
    inferInstanceAs (Decidable True)

def SafeRun : CacheDb → List CacheOp → Prop :=
  Runs.SafeRun (fun db op => some (step db op)) Safe

instance (db : CacheDb) (ops : List CacheOp) : Decidable (db.SafeRun ops) :=
  Runs.SafeRun.decidable _ _ ops db

variable {db : CacheDb}

theorem committed_row_iff {i : ℕ} (h : db.cache.Agrees db.chain) (hi : i < db.cache.height) :
    db.committed[i]? = some (db.cache.rows i) ↔ db.chain[i]? = db.committed[i]? := by
  rw [← h i hi]
  exact eq_comm

/-- A step keeps the cache in agreement exactly when it is safe. -/
theorem step_agrees_iff (op : CacheOp) (h : db.cache.Agrees db.chain) :
    (db.step op).cache.Agrees (db.step op).chain ↔ db.Safe op := by
  have hrow := fun i => committed_row_iff (i := i) h
  obtain ⟨committed, batch, cache⟩ := db
  cases op with
  | batchStart =>
    refine iff_of_true ?_ trivial
    cases batch with
    | none => exact h
    | some chain => exact h
  | addBlock row =>
    refine iff_of_true ?_ trivial
    cases batch with
    | none => exact h
    | some chain => exact BlockCache.Agrees.append h [row]
  | removeBlock =>
    refine iff_of_true ?_ trivial
    rcases batch with _ | _ | ⟨row, rows⟩
    · exact h
    · exact h
    · refine (BlockCache.lower_agrees_iff _).2 fun i hi hlt => ?_
      exact (List.getElem?_dropLast.trans (if_pos hlt)).trans (h i hi)
  | batchStop ok =>
    cases ok with
    | true =>
      refine iff_of_true ?_ trivial
      cases batch with
      | none => exact h
      | some chain => exact h
    | false =>
      -- whether a batch was open or not, the chain is now the committed one
      cases batch with
      | none => exact forall₂_congr hrow
      | some chain => exact forall₂_congr hrow
  | batchAbort =>
    cases batch with
    | none => exact ⟨fun _ _ _ _ => rfl, fun _ => h⟩
    | some chain =>
      exact (BlockCache.lower_agrees_iff _).trans
        (forall₂_congr fun i hi => imp_congr_right fun _ => hrow i hi)
  | writerBuild height =>
    refine iff_of_true ?_ trivial
    exact (BlockCache.build_agrees_iff _ height h).2 fun _ _ _ _ => rfl
  | readerBuild height => exact BlockCache.build_agrees_iff committed height h

/-- A safe run keeps the cache in agreement. -/
theorem run_agrees (ops : List CacheOp) (h : db.cache.Agrees db.chain) (hsafe : db.SafeRun ops) :
    (db.run ops).cache.Agrees (db.run ops).chain := by
  have hstep : ∀ db op db', db.cache.Agrees db.chain → db.Safe op → some (step db op) = some db' →
      db'.cache.Agrees db'.chain := by
    rintro db op _ hdb hop ⟨⟩
    exact (step_agrees_iff op hdb).2 hop
  exact Runs.SafeRun.inv _ _ hstep ops db _ h hsafe (Runs.run_some step ops db)

/-- After every run of safe calls from an empty cache, when no batch is open, every entry of the
cache is the committed chain's row at its height. -/
theorem run_coherent (committed : List BlockRow) (rows : ℕ → BlockRow) (ops : List CacheOp)
    (hsafe : (opened committed rows).SafeRun ops)
    (hclosed : ((opened committed rows).run ops).batch = none) :
    ((opened committed rows).run ops).cache.Agrees ((opened committed rows).run ops).committed := by
  have hempty : (opened committed rows).cache.Agrees (opened committed rows).chain :=
    fun i hi => absurd hi (Nat.not_lt_zero i)
  have hagrees := run_agrees ops hempty hsafe
  rwa [chain, hclosed, Option.getD_none] at hagrees

def cachedRow (hash : ℕ) : BlockRow := ⟨hash, 60, 1000, 0⟩

def twoBlocks : CacheDb := opened [cachedRow 1, cachedRow 2] fun _ => default

/-- A block is replaced while a reader asks for what both chains have; then another is added and the
batch aborted. -/
theorem run_coherent_replacedBlock :
    let ops := [.readerBuild 2, .batchStart, .removeBlock, .readerBuild 1, .addBlock (cachedRow 3),
      .writerBuild 2, .batchStop true, .batchStart, .addBlock (cachedRow 4), .writerBuild 3,
      .batchAbort]
    (twoBlocks.run ops).cache.height = 2 ∧
      (twoBlocks.run ops).cache.Agrees (twoBlocks.run ops).committed :=
  ⟨by decide, run_coherent _ _ _ (by decide) rfl⟩

/-- The top block is removed in a batch and a reader fills the cache again from the committed rows
before the batch adds another block and commits. -/
theorem run_stale_row :
    let ops := [.batchStart, .removeBlock, .readerBuild 2, .addBlock (cachedRow 3), .batchStop true]
    let ops' := [.batchStart, .removeBlock, .addBlock (cachedRow 3), .writerBuild 2, .batchAbort]
    ((twoBlocks.run ops).batch = none ∧
        ¬(twoBlocks.run ops).cache.Agrees (twoBlocks.run ops).committed) ∧
      (twoBlocks.run ops').batch = none ∧
        ¬(twoBlocks.run ops').cache.Agrees (twoBlocks.run ops').committed := by
  decide

end CacheDb

end Nerva
