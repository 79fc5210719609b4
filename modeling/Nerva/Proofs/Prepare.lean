import Nerva.Lib.Lists
import Nerva.Prepare
import Nerva.Proofs.DifficultyCache

/-!
# Preparing a batch releases what it took, unless a transaction has a non-key input

Every early return of `prepare_handle_incoming_blocks` ends in `core`'s cleanup. The one exit that
does not is the exception of `boost::get` on an input that is not `txin_to_key`: it leaves both
locks and the batch held.
-/

namespace Nerva

open Checks List SyncState

theorem scanInputs_nil (table : ScanTable) : ∀ vin : List TxIn,
    scanInputs table [] vin =
      if vin.all TxIn.isToKey then .ok () else .error (.badGet table)
  | [] => rfl
  | .toKey _ _ _ :: rest => by
    rw [scanInputs, scanInputs_nil table rest]
    rfl
  | .gen _ :: _ => rfl
  | .toScript :: _ => rfl
  | .toScripthash :: _ => rfl

section Scan

variable (env : Env)

/-- The prefix hashes of the transactions that parse. -/
def prefixHashes (entries : List TxBlobEntry) : List Hash :=
  entries.filterMap fun e => (env.parseTxBase e.blob).map env.txPrefixHash

/-- The scan passes over these blobs: they parse, no prefix hash comes twice and all inputs are
`txin_to_key`. -/
structure Scans (entries : List TxBlobEntry) : Prop where
  parsed : ∀ e ∈ entries, ∃ tx, env.parseTxBase e.blob = some tx ∧ tx.vin.all TxIn.isToKey = true
  distinct : (prefixHashes env entries).Nodup

/-- Scanning throws at a transaction: it is new, and has an input that is no key. -/
structure ThrowsAt (done : List TxBlobEntry) (e : TxBlobEntry) : Prop where
  scans : Scans env done
  bad : ∃ tx, env.parseTxBase e.blob = some tx ∧ env.txPrefixHash tx ∉ prefixHashes env done ∧
    tx.vin.all TxIn.isToKey = false

/-- The state of the first pass after the blobs `done`. -/
structure ScanInv (done : List TxBlobEntry) (scan : Scan) : Prop where
  scans : Scans env done
  keys : scan.table.map Prod.fst = prefixHashes env done
  hashes : scan.txes.map Prod.snd = prefixHashes env done
  txes : ∀ x ∈ scan.txes, x.1.vin.all TxIn.isToKey = true

variable {env} {done : List TxBlobEntry} {scan : Scan} {txs : List TxBlobEntry} {e : TxBlobEntry}
  {entries : List BlockCompleteEntry} {poll : ℕ}

theorem prefixHashes_append (l₁ l₂ : List TxBlobEntry) :
    prefixHashes env (l₁ ++ l₂) = prefixHashes env l₁ ++ prefixHashes env l₂ :=
  filterMap_append

theorem Scans.of_append {l₁ l₂ : List TxBlobEntry} (h : Scans env (l₁ ++ l₂)) : Scans env l₁ where
  parsed e he := h.parsed e (mem_append_left _ he)
  distinct := by
    have hd := h.distinct
    rw [prefixHashes_append] at hd
    exact (nodup_append.mp hd).1

theorem Scans.not_throwsAt (h : Scans env (done ++ [e])) : ¬ThrowsAt env done e := by
  rintro ⟨-, tx, hparse, -, hbad⟩
  obtain ⟨tx', hparse', hgood⟩ := h.parsed e (by simp)
  obtain rfl := Option.some.inj (hparse.symm.trans hparse')
  exact absurd hgood (by simp [hbad])

/-- A transaction is scanned, throws, or is refused. -/
theorem ScanInv.scanTx (h : ScanInv env done scan) (e : TxBlobEntry) :
    (∃ scan', scanTx env scan e = .ok scan' ∧ ScanInv env (done ++ [e]) scan') ∨
    (ThrowsAt env done e ∧ ∃ table, Nerva.scanTx env scan e = .error (.badGet table)) ∨
    (¬ThrowsAt env done e ∧ ¬Scans env (done ++ [e]) ∧ Nerva.scanTx env scan e = .error .quit) := by
  have hhashes : ∀ tx, env.parseTxBase e.blob = some tx →
      prefixHashes env (done ++ [e]) = prefixHashes env done ++ [env.txPrefixHash tx] := by
    intro tx htx
    simp [prefixHashes, htx]
  have hlookup : ∀ hash, (scan.table.lookup hash).isSome = true ↔ hash ∈ prefixHashes env done := by
    intro hash
    rw [← h.keys]
    exact Lists.isSome_lookup_iff
  unfold Nerva.scanTx
  cases hparse : env.parseTxBase e.blob with
  | none =>
    refine .inr (.inr ⟨?_, ?_, rfl⟩)
    · rintro ⟨-, tx, htx, -⟩
      cases hparse.symm.trans htx
    · intro hs
      obtain ⟨tx, htx, -⟩ := hs.parsed e (by simp)
      cases hparse.symm.trans htx
  | some tx =>
    simp only [hlookup]
    by_cases hknown : env.txPrefixHash tx ∈ prefixHashes env done
    · refine .inr (.inr ⟨?_, ?_, by rw [if_pos hknown]⟩)
      · rintro ⟨-, tx', htx', hnew, -⟩
        obtain rfl := Option.some.inj (hparse.symm.trans htx')
        exact hnew hknown
      · intro hs
        have hd := hs.distinct
        rw [hhashes tx hparse, nodup_append] at hd
        exact hd.2.2 _ hknown _ (mem_singleton_self _) rfl
    · rw [if_neg hknown, scanInputs_nil]
      by_cases hkeys : tx.vin.all TxIn.isToKey = true
      · rw [if_pos hkeys]
        refine .inl ⟨_, rfl, ⟨?_, ?_⟩, ?_, ?_, ?_⟩
        · intro e' he'
          rcases mem_append.mp he' with hmem | hmem
          · exact h.scans.parsed e' hmem
          · rw [mem_singleton.mp hmem]
            exact ⟨tx, hparse, hkeys⟩
        · rw [hhashes tx hparse]
          refine nodup_append.mpr ⟨h.scans.distinct, nodup_singleton _, ?_⟩
          intro a ha b hb
          rw [mem_singleton.mp hb]
          exact fun heq => hknown (heq ▸ ha)
        · rw [map_append, h.keys, hhashes tx hparse]
          rfl
        · rw [map_append, h.hashes, hhashes tx hparse]
          rfl
        · intro x hx
          rcases mem_append.mp hx with hmem | hmem
          · exact h.txes x hmem
          · rw [mem_singleton.mp hmem]
            exact hkeys
      · rw [if_neg hkeys]
        refine .inr (.inl ⟨⟨h.scans, tx, hparse, hknown, by simpa using hkeys⟩, _, rfl⟩)

/-- Scanning throws at one of the transactions. -/
def Throws (env : Env) (done txs : List TxBlobEntry) : Prop :=
  ∃ d e r, txs = d ++ e :: r ∧ ThrowsAt env (done ++ d) e

theorem throws_cons :
    Throws env done (e :: txs) ↔ ThrowsAt env done e ∨ Throws env (done ++ [e]) txs := by
  constructor
  · rintro ⟨d, e', r, heq, hthrow⟩
    cases d with
    | nil =>
      obtain ⟨rfl, rfl⟩ := cons.inj heq
      rw [append_nil] at hthrow
      exact .inl hthrow
    | cons a d =>
      obtain ⟨rfl, rfl⟩ := cons.inj heq
      refine .inr ⟨d, e', r, rfl, ?_⟩
      rwa [append_assoc]
  · rintro (hthrow | ⟨d, e', r, rfl, hthrow⟩)
    · exact ⟨[], e, txs, rfl, by rwa [append_nil]⟩
    · refine ⟨e :: d, e', r, rfl, ?_⟩
      rwa [append_assoc] at hthrow

theorem Throws.scans (h : Throws env done txs) : Scans env done := by
  obtain ⟨d, e, r, -, hthrow⟩ := h
  exact hthrow.scans.of_append

theorem Throws.not_scans (h : Throws env done txs) : ¬Scans env (done ++ txs) := by
  obtain ⟨d, e, r, rfl, hthrow⟩ := h
  intro hs
  have happend : done ++ (d ++ e :: r) = done ++ d ++ [e] ++ r := by simp
  rw [happend] at hs
  exact hs.of_append.not_throwsAt hthrow

theorem ScanInv.scanTxs : ∀ (txs : List TxBlobEntry) {done : List TxBlobEntry} {scan : Scan},
    ScanInv env done scan →
    (∃ scan', txs.foldlM (Nerva.scanTx env) scan = .ok scan' ∧ ScanInv env (done ++ txs) scan' ∧
      ¬Throws env done txs) ∨
    (Throws env done txs ∧ ∃ table, txs.foldlM (Nerva.scanTx env) scan = .error (.badGet table)) ∨
    (¬Throws env done txs ∧ ¬Scans env (done ++ txs) ∧
      txs.foldlM (Nerva.scanTx env) scan = .error .quit)
  | [], done, scan, h => by
    refine .inl ⟨scan, rfl, by rwa [append_nil], ?_⟩
    rintro ⟨d, e, r, heq, -⟩
    simp at heq
  | e :: txs, done, scan, h => by
    rw [foldlM_cons, throws_cons]
    have happend : done ++ e :: txs = done ++ [e] ++ txs := by simp
    rcases h.scanTx e with ⟨scan', hok, h'⟩ | ⟨hthrow, table, herr⟩ | ⟨hthrow, hstop, herr⟩
    · rw [hok, happend]
      have hnot := h'.scans.not_throwsAt
      simp only [hnot, false_or]
      exact ScanInv.scanTxs txs h'
    · rw [herr]
      exact .inr (.inl ⟨.inl hthrow, table, rfl⟩)
    · rw [herr, happend]
      refine .inr (.inr ⟨?_, fun hs => hstop hs.of_append, rfl⟩)
      rintro (hc | hc)
      · exact hthrow hc
      · exact hstop hc.scans

variable {cancel : ℕ → Bool}

/-- The scan of the blocks throws: in some block, reached without a cancellation. -/
def EntriesThrow (env : Env) (cancel : ℕ → Bool) (poll : ℕ) (done : List TxBlobEntry)
    (entries : List BlockCompleteEntry) : Prop :=
  ∃ before entry after, entries = before ++ entry :: after ∧
    (∀ i ≤ before.length, cancel (poll + i) = false) ∧
    Throws env (done ++ before.flatMap (·.txs)) entry.txs

theorem entriesThrow_cons {entry : BlockCompleteEntry} :
    EntriesThrow env cancel poll done (entry :: entries) ↔
      cancel poll = false ∧ (Throws env done entry.txs ∨
        EntriesThrow env cancel (poll + 1) (done ++ entry.txs) entries) := by
  constructor
  · rintro ⟨before, e, after, heq, hpoll, hthrow⟩
    refine ⟨hpoll 0 (Nat.zero_le _), ?_⟩
    cases before with
    | nil =>
      obtain ⟨rfl, rfl⟩ := cons.inj heq
      rw [flatMap_nil, append_nil] at hthrow
      exact .inl hthrow
    | cons b before =>
      obtain ⟨rfl, rfl⟩ := cons.inj heq
      refine .inr ⟨before, e, after, rfl, fun i hi => ?_, ?_⟩
      · rw [Nat.add_assoc, Nat.add_comm 1]
        exact hpoll (i + 1) (Nat.succ_le_succ hi)
      · rwa [append_assoc]
  · rintro ⟨hcancel, hthrow | ⟨before, e, after, rfl, hpoll, hthrow⟩⟩
    · refine ⟨[], entry, entries, rfl, fun i hi => ?_, ?_⟩
      · rw [Nat.le_zero.mp hi]
        exact hcancel
      · rwa [flatMap_nil, append_nil]
    · refine ⟨entry :: before, e, after, rfl, fun i hi => ?_, ?_⟩
      · cases i with
        | zero => exact hcancel
        | succ i =>
          rw [← Nat.add_assoc, Nat.add_right_comm]
          exact hpoll i (Nat.le_of_succ_le_succ hi)
      · rwa [append_assoc] at hthrow

theorem EntriesThrow.scans (h : EntriesThrow env cancel poll done entries) : Scans env done := by
  obtain ⟨before, entry, after, -, -, hthrow⟩ := h
  exact hthrow.scans.of_append

/-- The entries are scanned, throw, or are refused. -/
theorem ScanInv.scanEntries (cancel : ℕ → Bool) : ∀ (entries : List BlockCompleteEntry) (poll : ℕ)
    {done : List TxBlobEntry} {scan : Scan}, ScanInv env done scan →
    (∃ scan', scanEntries env cancel poll entries scan = .ok scan' ∧
      ScanInv env (done ++ entries.flatMap (·.txs)) scan' ∧
      ¬EntriesThrow env cancel poll done entries) ∨
    (EntriesThrow env cancel poll done entries ∧ ¬Scans env (done ++ entries.flatMap (·.txs)) ∧
      ∃ table, Nerva.scanEntries env cancel poll entries scan = .error (.badGet table)) ∨
    (¬EntriesThrow env cancel poll done entries ∧
      (¬Scans env (done ++ entries.flatMap (·.txs)) ∨ ∃ i, cancel i = true) ∧
      ∃ exit, Nerva.scanEntries env cancel poll entries scan = .error exit ∧
        ∀ table, exit ≠ .badGet table)
  | [], poll, done, scan, h => by
    refine .inl ⟨scan, rfl, by simpa using h, ?_⟩
    rintro ⟨before, entry, after, heq, -⟩
    simp at heq
  | entry :: entries, poll, done, scan, h => by
    rw [Nerva.scanEntries, entriesThrow_cons, flatMap_cons, ← append_assoc]
    cases hcancel : cancel poll with
    | true =>
      refine .inr (.inr ⟨by simp, .inr ⟨poll, hcancel⟩, .cancelled scan.table, rfl, ?_⟩)
      intro table heq
      cases heq
    | false =>
      simp only [true_and]
      rcases h.scanTxs entry.txs with
        ⟨scan', hok, h', hthrow⟩ | ⟨hthrow, table, herr⟩ | ⟨hthrow, hstop, herr⟩
      · rw [hok]
        simp only [hthrow, false_or]
        exact ScanInv.scanEntries cancel entries (poll + 1) h'
      · rw [herr]
        exact .inr (.inl ⟨.inl hthrow, fun hs => hthrow.not_scans hs.of_append, table, rfl⟩)
      · rw [herr]
        refine .inr (.inr ⟨?_, .inl fun hs => hstop hs.of_append, .quit, rfl, ?_⟩)
        · rintro (hc | hc)
          · exact hthrow hc
          · exact hstop hc.scans
        · intro table heq
          cases heq

variable {bc : Blockchain} {txes : List (Transaction × Hash)}

theorem fillInputs_ok {table : ScanTable} : ∀ (vin : List TxIn)
    (known : List (KeyImage × List OutputData)), vin.all TxIn.isToKey = true →
    ∃ known', fillInputs env bc txes table vin known = .ok known'
  | [], known, _ => ⟨known, rfl⟩
  | .toKey _ _ _ :: rest, known, h => fillInputs_ok rest _ h
  | .gen _ :: _, _, h => by cases h
  | .toScript :: _, _, h => by cases h
  | .toScripthash :: _, _, h => by cases h

theorem ScanTable.keys_set (table : ScanTable) (hash : Hash)
    (known : List (KeyImage × List OutputData)) :
    (table.set hash known).map Prod.fst = table.map Prod.fst := by
  rw [ScanTable.set, map_map]
  refine map_congr_left fun x _ => ?_
  by_cases hx : x.1 = hash
  · simp [hx]
  · simp [hx]

/-- What the second pass relies on. -/
structure Fillable (rest : List (Transaction × Hash)) (table : ScanTable) : Prop where
  known : ∀ x ∈ rest, x.2 ∈ table.map Prod.fst
  keys : ∀ x ∈ rest, x.1.vin.all TxIn.isToKey = true

theorem Fillable.fillTxs : ∀ (entries : List TxBlobEntry) {rest : List (Transaction × Hash)}
    {table : ScanTable}, Fillable rest table → entries.length ≤ rest.length →
    ∃ table', fillTxs env bc txes entries rest table = .ok (rest.drop entries.length, table') ∧
      Fillable (rest.drop entries.length) table'
  | [], rest, table, h, _ => ⟨table, rfl, h⟩
  | _ :: _, [], _, _, hlen => absurd hlen (by simp)
  | _ :: entries, (tx, hash) :: rest, table, h, hlen => by
    obtain ⟨known, hknown⟩ := Option.isSome_iff_exists.mp
      (Lists.isSome_lookup_iff.mpr (h.known (tx, hash) mem_cons_self))
    obtain ⟨known', hfill⟩ : ∃ known', fillInputs env bc txes table tx.vin known = .ok known' :=
      fillInputs_ok tx.vin known (h.keys (tx, hash) mem_cons_self)
    have hrest : Fillable rest (table.set hash known') := by
      refine ⟨fun x hx => ?_, fun x hx => h.keys x (mem_cons_of_mem _ hx)⟩
      rw [ScanTable.keys_set]
      exact h.known x (mem_cons_of_mem _ hx)
    rw [Nerva.fillTxs, hknown]
    simp only [hfill]
    exact hrest.fillTxs entries (Nat.le_of_succ_le_succ hlen)

/-- The second pass does not fail. -/
theorem Fillable.fillEntries : ∀ (entries : List BlockCompleteEntry) (poll : ℕ)
    {rest : List (Transaction × Hash)} {table : ScanTable}, Fillable rest table →
    (entries.flatMap (·.txs)).length ≤ rest.length →
    (∃ table', fillEntries env bc txes cancel poll entries rest table = .ok table') ∨
    ((∃ i, cancel i = true) ∧
      ∃ left, Nerva.fillEntries env bc txes cancel poll entries rest table =
        .error (.cancelled left))
  | [], poll, rest, table, h, _ => .inl ⟨table, rfl⟩
  | entry :: entries, poll, rest, table, h, hlen => by
    rw [flatMap_cons, length_append] at hlen
    rw [Nerva.fillEntries]
    cases hcancel : cancel poll with
    | true => exact .inr ⟨⟨poll, hcancel⟩, table, rfl⟩
    | false =>
      obtain ⟨table', hfill, h'⟩ : ∃ table', Nerva.fillTxs env bc txes entry.txs rest table =
          .ok (rest.drop entry.txs.length, table') ∧ Fillable (rest.drop entry.txs.length) table' :=
        h.fillTxs entry.txs (by omega)
      simp only [hfill]
      exact h'.fillEntries entries (poll + 1) (by rw [length_drop]; omega)

theorem Scans.length (h : Scans env done) : (prefixHashes env done).length = done.length := by
  rw [prefixHashes, length_filterMap_eq_countP, countP_eq_length]
  intro e he
  obtain ⟨tx, htx, -⟩ := h.parsed e he
  simp [htx]

theorem scanInv_nil (env : Env) : ScanInv env [] {} where
  scans := ⟨fun e he => absurd he (by simp), nodup_nil⟩
  keys := rfl
  hashes := rfl
  txes := fun x hx => absurd hx (by simp)

theorem ScanInv.fillable (h : ScanInv env done scan) :
    Fillable scan.txes scan.table ∧ scan.txes.length = done.length := by
  refine ⟨⟨fun x hx => ?_, h.txes⟩, ?_⟩
  · rw [h.keys, ← h.hashes]
    exact mem_map_of_mem hx
  · have hlen := congrArg length h.hashes
    rwa [length_map, h.scans.length] at hlen

/-- How building the scan table can end. -/
theorem buildScanTable_cases (env : Env) (bc : Blockchain) (cancel : ℕ → Bool)
    (entries : List BlockCompleteEntry) :
    (∃ table, buildScanTable env cancel entries bc = .ok table ∧
      Scans env (entries.flatMap (·.txs)) ∧ ¬EntriesThrow env cancel 1 [] entries) ∨
    (EntriesThrow env cancel 1 [] entries ∧ ¬Scans env (entries.flatMap (·.txs)) ∧
      ∃ table, buildScanTable env cancel entries bc = .error (.badGet table)) ∨
    (¬EntriesThrow env cancel 1 [] entries ∧
      (¬Scans env (entries.flatMap (·.txs)) ∨ ∃ i, cancel i = true) ∧
      ∃ exit, buildScanTable env cancel entries bc = .error exit ∧
        ∀ table, exit ≠ .badGet table) := by
  unfold buildScanTable
  rcases (scanInv_nil env).scanEntries cancel entries 1 with
    ⟨scan, hok, hinv, hthrow⟩ | ⟨hthrow, hstop, table, herr⟩ | ⟨hthrow, hstop, exit, herr, hne⟩
  · rw [nil_append] at hinv
    obtain ⟨hfill, hlen⟩ := hinv.fillable
    simp only [hok]
    rcases hfill.fillEntries entries (1 + entries.length) (Nat.le_of_eq hlen.symm) with
      ⟨table, htable⟩ | ⟨hcancel, left, herr⟩
    · exact .inl ⟨table, htable, hinv.scans, hthrow⟩
    · refine .inr (.inr ⟨hthrow, .inr hcancel, .cancelled left, herr, ?_⟩)
      intro table heq
      cases heq
  · rw [herr]
    exact .inr (.inl ⟨hthrow, hstop, table, rfl⟩)
  · rw [herr]
    exact .inr (.inr ⟨hthrow, hstop, exit, rfl, hne⟩)

/-- When building the scan table throws. -/
theorem buildScanTable_badGet (entries : List BlockCompleteEntry) :
    (∃ table, buildScanTable env cancel entries bc = .error (.badGet table)) ↔
      EntriesThrow env cancel 1 [] entries := by
  rcases buildScanTable_cases env bc cancel entries with
    ⟨table, hok, -, hthrow⟩ | ⟨hthrow, -, herr⟩ | ⟨hthrow, -, exit, herr, hne⟩
  · simp [hok, hthrow]
  · exact iff_of_true herr hthrow
  · refine iff_of_false ?_ hthrow
    rintro ⟨table, herr'⟩
    exact hne table (Except.error.inj (herr.symm.trans herr'))

/-- When the scan table is built, if nobody cancels. -/
theorem buildScanTable_ok (hcancel : ∀ i, cancel i = false) (entries : List BlockCompleteEntry) :
    (∃ table, buildScanTable env cancel entries bc = .ok table) ↔
      Scans env (entries.flatMap (·.txs)) := by
  rcases buildScanTable_cases env bc cancel entries with
    ⟨table, hok, hscans, -⟩ | ⟨-, hstop, table, herr⟩ | ⟨-, hstop, exit, herr, -⟩
  · exact iff_of_true ⟨table, hok⟩ hscans
  · simp [herr, hstop]
  · have hnot : ¬Scans env (entries.flatMap (·.txs)) := by
      rcases hstop with hstop | ⟨i, hi⟩
      · exact hstop
      · cases (hcancel i).symm.trans hi
    simp [herr, hnot]

end Scan

section Locks

variable {env : Env} {cancel : ℕ → Bool} {busy : ℕ} {entries : List BlockCompleteEntry}
  {s : SyncState} {blocks : List Block}

/-- The scan is reached: nothing before it ends `prepare_handle_incoming_blocks`. -/
structure ReachesScan (env : Env) (cancel : ℕ → Bool) (entries : List BlockCompleteEntry)
    (s : SyncState) : Prop where
  beyondHashCheck : s.blocksHashCheckSize ≤ s.bc.db.height + entries.length
  chained : ∃ first, (entries.head?.bind fun e => env.parseBlock e.block) = some first ∧
    first.prevId = s.bc.db.topBlockHash env
  fresh : ∃ blocks, (entries.mapM fun e => env.parseBlock e.block) = some blocks ∧
    (blocks.any fun b => s.bc.haveBlock env (env.blockHash b)) = false
  running : cancel 0 = false

theorem prepareBatch_threw :
    (prepareBatch env cancel s.blocksHashCheckSize entries s.bc).1 = .threw ↔
      ReachesScan env cancel entries s ∧ EntriesThrow env cancel 1 [] entries := by
  have hscan : (∃ table, buildScanTable env cancel entries s.bc = .error (.badGet table)) ↔ _ :=
    buildScanTable_badGet entries
  rw [← hscan]
  constructor
  · intro h
    unfold prepareBatch at h
    split at h
    · cases h
    · rename_i hcheck
      split at h
      · cases h
      · rename_i first hfirst
        split at h
        · cases h
        · rename_i hprev
          split at h
          · cases h
          · rename_i blocks hblocks
            split_ifs at h with hcancel hknown
            split at h
            · cases h
            · rename_i exit hexit
              refine ⟨⟨not_lt.mp hcheck, ⟨first, hfirst, not_not.mp hprev⟩,
                ⟨blocks, hblocks, ?_⟩, ?_⟩, ?_⟩
              · exact Bool.eq_false_iff.mpr hknown
              · exact Bool.eq_false_iff.mpr hcancel
              · cases exit with
                | badGet table => exact ⟨table, hexit⟩
                | _ => cases h
  · rintro ⟨⟨hcheck, ⟨first, hfirst, hprev⟩, ⟨blocks, hblocks, hknown⟩, hcancel⟩, table, hexit⟩
    simp [prepareBatch, not_lt.mpr hcheck, hfirst, hprev, hblocks, hcancel, hknown, hexit,
      ScanExit.prepareExit]

theorem startBatch_eq : ∀ (busy : ℕ) (s : SyncState), 0 < s.txPoolLock → 0 < s.blockchainLock →
    startBatch busy s = { s with batch := some s.bc.db, batchSuccess := true }
  | 0, s, _, _ => rfl
  | busy + 1, s, hp, hb => by
    have hsame : s.unlockBlockchain.unlockTxPool.lockTxPool.lockBlockchain = s := by
      simp only [unlockBlockchain, unlockTxPool, lockTxPool,
        lockBlockchain, Nat.sub_add_cancel hp, Nat.sub_add_cancel hb]
    rw [startBatch, hsame, startBatch_eq busy s hp hb]

/-- The locks taken are released and no batch is open. -/
structure Released (s s' : SyncState) : Prop where
  incomingTxLock : s'.incomingTxLock = s.incomingTxLock
  txPoolLock : s'.txPoolLock = s.txPoolLock
  batch : s'.batch = none

/-- Nothing is left held: the call returns true, or everything it took is released. -/
def LeavesNothingHeld (s : SyncState) (r : PrepareExit × SyncState) : Prop :=
  (∃ blocks, r.1 = .returned true blocks) ∨ Released s r.2

theorem coreCleanup_released {s' : SyncState} (hi : s'.incomingTxLock = s.incomingTxLock + 1)
    (hp : s'.txPoolLock = s.txPoolLock + 1) : Released s s'.coreCleanup.2 := by
  unfold coreCleanup cleanupHandleIncomingBlocks endBatch
  cases hb : s'.batch with
  | none =>
    refine ⟨?_, ?_, ?_⟩ <;>
      simp [lockBlockchain, unlockBlockchain, unlockTxPool,
        unlockIncomingTx, hb, hi, hp]
  | some db =>
    refine ⟨?_, ?_, ?_⟩ <;>
      simp [lockBlockchain, unlockBlockchain, unlockTxPool,
        unlockIncomingTx, hb, hi, hp]

/-- What `prepare_handle_incoming_blocks` holds when it is left. -/
theorem prepareHandleIncomingBlocks_spec (env : Env) (cancel : ℕ → Bool) (busy : ℕ)
    (entries : List BlockCompleteEntry) (s : SyncState) :
    (s.prepareHandleIncomingBlocks env cancel busy entries).2.incomingTxLock = s.incomingTxLock ∧
    (s.prepareHandleIncomingBlocks env cancel busy entries).2.txPoolLock = s.txPoolLock + 1 ∧
    (s.prepareHandleIncomingBlocks env cancel busy entries).2.blockchainLock = s.blockchainLock ∧
    (entries ≠ [] →
      (s.prepareHandleIncomingBlocks env cancel busy entries).2.batch.isSome = true) ∧
    (s.prepareHandleIncomingBlocks env cancel busy entries).1 =
      if entries = [] then .returned false []
      else (prepareBatch env cancel s.blocksHashCheckSize entries s.bc).1 := by
  unfold prepareHandleIncomingBlocks
  simp only []
  split_ifs with hnil
  · exact ⟨rfl, rfl, rfl, fun hne => absurd hnil hne, rfl⟩
  · rw [startBatch_eq busy s.lockTxPool.lockBlockchain (Nat.succ_pos _) (Nat.succ_pos _)]
    exact ⟨rfl, rfl, rfl, fun _ => rfl, rfl⟩

/-- The batch's preparation leaves nothing held exactly when no transaction that the scan reaches
makes it throw. -/
theorem corePrepare_leavesNothingHeld_iff (env : Env) (cancel : ℕ → Bool) (busy : ℕ)
    (entries : List BlockCompleteEntry) (s : SyncState) :
    LeavesNothingHeld s (s.corePrepare env cancel busy entries) ↔
      ¬(ReachesScan env cancel entries s ∧ EntriesThrow env cancel 1 [] entries) := by
  obtain ⟨hi, hp, -, -, hexit⟩ := prepareHandleIncomingBlocks_spec env cancel busy entries
    s.lockIncomingTx
  have hthrew : (s.lockIncomingTx.prepareHandleIncomingBlocks env cancel busy entries).1 = .threw ↔
      ReachesScan env cancel entries s ∧ EntriesThrow env cancel 1 [] entries := by
    rw [hexit]
    split_ifs with hnil
    · refine iff_of_false (by simp) fun h => ?_
      obtain ⟨first, hfirst, -⟩ := h.1.chained
      rw [hnil] at hfirst
      cases hfirst
    · exact prepareBatch_threw (s := s)
  rw [← hthrew]
  unfold corePrepare LeavesNothingHeld
  generalize s.lockIncomingTx.prepareHandleIncomingBlocks env cancel busy entries = r at hi hp
  obtain ⟨exit, s'⟩ := r
  cases exit with
  | returned ok blocks =>
    cases ok with
    | true => simp
    | false => exact iff_of_true (.inr (coreCleanup_released hi hp)) (by simp)
  | threw =>
    refine iff_of_false ?_ (by simp)
    rintro (⟨blocks, hreturned⟩ | hreleased)
    · cases hreturned
    · have := hreleased.txPoolLock.symm.trans hp
      simp [lockIncomingTx] at this

/-- What a batch needs to be prepared when nothing is cancelled: it is checked by its hashes, it
does not extend the tip, a block of it is known, or all its transactions pass the scan. -/
def PrepareAccepts (env : Env) (entries : List BlockCompleteEntry) (s : SyncState) : Prop :=
  entries ≠ [] ∧
    (s.bc.db.height + entries.length < s.blocksHashCheckSize ∨
      ∃ first, (entries.head?.bind fun e => env.parseBlock e.block) = some first ∧
        (first.prevId ≠ s.bc.db.topBlockHash env ∨
          ∃ blocks, (entries.mapM fun e => env.parseBlock e.block) = some blocks ∧
            ((blocks.any fun b => s.bc.haveBlock env (env.blockHash b)) = true ∨
              Scans env (entries.flatMap (·.txs)))))

theorem prepareBatch_accepts (hcancel : ∀ i, cancel i = false) (hne : entries ≠ []) :
    (∃ blocks, (prepareBatch env cancel s.blocksHashCheckSize entries s.bc).1 =
      .returned true blocks) ↔ PrepareAccepts env entries s := by
  unfold prepareBatch PrepareAccepts
  by_cases hcheck : s.bc.db.height + entries.length < s.blocksHashCheckSize
  · simp [hcheck, hne]
  rw [if_neg hcheck]
  cases hfirst : entries.head?.bind fun e => env.parseBlock e.block with
  | none => simp [hcheck]
  | some first =>
    by_cases hprev : first.prevId = s.bc.db.topBlockHash env
    · cases hblocks : entries.mapM fun e => env.parseBlock e.block with
      | none => simp [hcheck, hprev]
      | some blocks =>
        cases hknown : blocks.any fun b => s.bc.haveBlock env (env.blockHash b) with
        | true =>
          exact iff_of_true ⟨blocks, by simp [hcancel, hprev, hknown]⟩
            ⟨hne, .inr ⟨first, rfl, .inr ⟨blocks, rfl, .inl hknown⟩⟩⟩
        | false =>
          have hscan : (∃ table, buildScanTable env cancel entries s.bc = .ok table) ↔ _ :=
            buildScanTable_ok hcancel entries
          simp only [hcancel, hprev, hknown, hne, hcheck, ne_eq, Option.some.injEq,
            exists_eq_left', ← hscan]
          cases hexit : buildScanTable env cancel entries s.bc with
          | ok table => simp
          | error exit => cases exit <;> simp [ScanExit.prepareExit]
    · simp [hprev, hne]

/-- When a batch is prepared, if nobody cancels. -/
theorem corePrepare_accepts (busy : ℕ) (hcancel : ∀ i, cancel i = false) :
    (∃ blocks, (s.corePrepare env cancel busy entries).1 = .returned true blocks) ↔
      PrepareAccepts env entries s := by
  obtain ⟨-, -, -, -, hexit⟩ := prepareHandleIncomingBlocks_spec env cancel busy entries
    s.lockIncomingTx
  have haccepts : (∃ blocks, (s.lockIncomingTx.prepareHandleIncomingBlocks env cancel busy
      entries).1 = .returned true blocks) ↔ PrepareAccepts env entries s := by
    rw [hexit]
    split_ifs with hnil
    · simp [PrepareAccepts, hnil]
    · exact prepareBatch_accepts (s := s) hcancel hnil
  rw [← haccepts]
  unfold corePrepare
  generalize s.lockIncomingTx.prepareHandleIncomingBlocks env cancel busy entries = r
  obtain ⟨exit, s'⟩ := r
  cases exit with
  | returned ok blocks => cases ok <;> simp
  | threw => simp

theorem prepareBatch_blocks
    (h : (prepareBatch env cancel s.blocksHashCheckSize entries s.bc).1 = .returned true blocks) :
    blocks = [] ∨ blocks.length = entries.length := by
  unfold prepareBatch at h
  split at h
  · exact .inl (PrepareExit.returned.inj h).2.symm
  · split at h
    · cases h
    · split at h
      · exact .inl (PrepareExit.returned.inj h).2.symm
      · split at h
        · cases h
        · rename_i parsed hparsed
          suffices parsed = blocks from
            .inr (this ▸ (Lists.forall₂_of_mapM_eq_some hparsed).length_eq.symm)
          split_ifs at h
          · cases h
          · exact (PrepareExit.returned.inj h).2
          · split at h
            · exact (PrepareExit.returned.inj h).2
            · rename_i exit _
              cases exit <;> cases h

theorem corePrepare_prepared
    (h : (s.corePrepare env cancel busy entries).1 = .returned true blocks) :
    (blocks = [] ∨ blocks.length = entries.length) ∧
      (s.corePrepare env cancel busy entries).2.batch.isSome = true := by
  obtain ⟨-, -, -, hbatch, hexit⟩ := prepareHandleIncomingBlocks_spec env cancel busy entries
    s.lockIncomingTx
  unfold corePrepare at h ⊢
  generalize s.lockIncomingTx.prepareHandleIncomingBlocks env cancel busy entries = r at *
  obtain ⟨exit, s'⟩ := r
  cases exit with
  | threw => simp at h
  | returned ok pblocks =>
    cases ok with
    | false => simp at h
    | true =>
      obtain ⟨-, rfl⟩ := PrepareExit.returned.inj h
      split_ifs at hexit with hnil
      · simp at hexit
      · exact ⟨prepareBatch_blocks (s := s) hexit.symm, hbatch hnil⟩

end Locks

def coinbaseInputTx : Transaction where
  version := 2
  unlockTime := 0
  vin := [.gen 1]
  vout := []
  extra := []
  rctSignatures := ⟨.null, 0, [], [], [], []⟩
  pruned := false

def coinbaseInputEnv : Env :=
  { nonceEnv with
    parseBlock := fun _ => some (numberedBlock 1 1000 1 1)
    parseTxBase := fun _ => some coinbaseInputTx }

/-- The exception leaves with both locks and the batch held. -/
theorem coinbase_input_leaves_locks_held :
    let s : SyncState := { bc := genesisChain }
    let r := s.corePrepare coinbaseInputEnv (fun _ => false) 0 [⟨[], [⟨[], 0⟩], false, 0⟩]
    coinbaseInputEnv.parseBlock [] = some (numberedBlock 1 1000 1 1) ∧
    r.1 = .threw ∧ r.2.incomingTxLock = 1 ∧ r.2.txPoolLock = 1 ∧ r.2.batch.isSome = true ∧
    ¬LeavesNothingHeld s r := by
  intro s r
  have hthrew : r.1 = .threw := by decide
  refine ⟨rfl, hthrew, by decide, by decide, by decide, ?_⟩
  rintro (⟨blocks, hreturned⟩ | hreleased)
  · cases hthrew.symm.trans hreturned
  · exact absurd hreleased.txPoolLock (by decide)

end Nerva
