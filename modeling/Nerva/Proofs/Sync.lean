import Nerva.Proofs.Prepare
import Nerva.Sync

/-!
# A span that fails leaves the queue, unless it fails to be prepared

After a failed transaction or block the span is removed from the queue whatever has happened to its
connection. A span that cannot be prepared stays in front of the queue, where the next call finds
it again, and so does one with a refused transaction that cannot be reported.
-/

namespace Nerva

open List BlockQueue

namespace SyncState

theorem coreCleanup_fst (s : SyncState) : s.coreCleanup.1 = s.batch.isSome := by
  unfold coreCleanup cleanupHandleIncomingBlocks endBatch
  cases hb : s.batch <;> simp [lockBlockchain, hb]

end SyncState

section Sync

variable {e : SyncEnv} {s : Syncing} {span : Span}

/-- Only spans are gone from the queue. -/
def Syncing.ShrinksTo (s s' : Syncing) : Prop := s'.queue.spans.Sublist s.queue.spans

theorem Syncing.ShrinksTo.refl (s : Syncing) : s.ShrinksTo s := List.Sublist.refl _

theorem Syncing.ShrinksTo.trans {s t u : Syncing} (h : s.ShrinksTo t) (h' : t.ShrinksTo u) :
    s.ShrinksTo u := List.Sublist.trans h' h

theorem Syncing.ShrinksTo.length_lt {s s' : Syncing} (h : s.ShrinksTo s') {span : Span}
    (hmem : span ∈ s.queue.spans) (hgone : span ∉ s'.queue.spans) :
    s'.queue.spans.length < s.queue.spans.length := by
  refine Nat.lt_of_le_of_ne h.length_le fun hlen => ?_
  rw [h.eq_of_length hlen] at hgone
  exact hgone hmem

theorem Syncing.shrinksTo_remove (s : Syncing) (span : Span) : s.ShrinksTo (s.remove span) :=
  eraseBlocks_sublist _ _

theorem notMem_remove (s : Syncing) (span : Span) : span ∉ (s.remove span).queue.spans := by
  intro hmem
  have hkept := (mem_eraseBlocks.mp hmem).2
  simp at hkept

/-- A verdict of the core: nothing is refused, or a transaction or a block is. -/
def OfCore (why : Option SpanFailure) : Prop :=
  why = none ∨ (∃ tx, why = some (.transaction tx)) ∨ why = some .block ∨ why = some .orphaned

/-- Handling the blocks leaves the batch open, and ends as the core decides. -/
theorem processBlocks_spec (hstop : ∀ i, e.stopping i = false) (pblocks : List Block) :
    ∀ (i : ℕ) (entries : List BlockCompleteEntry) (s : SyncState),
    (processBlocks e pblocks i entries s).2.batch.isSome = s.batch.isSome ∧
      OfCore (processBlocks e pblocks i entries s).1
  | i, [], s => ⟨rfl, .inl rfl⟩
  | i, entry :: rest, s => by
    have htxs := e.handlers.batch_txs s entry.txs
    have hblock := e.handlers.batch_block (e.handlers.handleIncomingTxs s entry.txs).2 entry.block
      pblocks[i]?
    simp only [processBlocks, hstop, Bool.false_eq_true, if_false, ne_eq, e.handlers.length_txs,
      not_true_eq_false]
    split
    · exact ⟨htxs, .inr (.inl ⟨_, rfl⟩)⟩
    · split_ifs
      · exact ⟨hblock.trans htxs, .inr (.inr (.inl rfl))⟩
      · exact ⟨hblock.trans htxs, .inr (.inr (.inr rfl))⟩
      · obtain ⟨hbatch, hwhy⟩ := processBlocks_spec hstop pblocks (i + 1) rest
          (e.handlers.handleIncomingBlock (e.handlers.handleIncomingTxs s entry.txs).2 entry.block
            pblocks[i]?).2
        exact ⟨hbatch.trans (hblock.trans htxs), hwhy⟩

/-- Once the span is prepared, this transaction is the first thing that the core refuses of it. -/
def RefusesTx (e : SyncEnv) (span : Span) (core : SyncState) (tx : TxBlobEntry) : Prop :=
  ∃ pblocks core', core.corePrepare e.env e.cancel e.busy span.blocks =
      (.returned true pblocks, core') ∧
    (processBlocks e pblocks 0 span.blocks core').1 = some (.transaction tx)

/-- The transaction's id is asked for, and computing it throws. -/
def Unreportable (e : SyncEnv) (span : Span) (tx : TxBlobEntry) : Prop :=
  e.connected span.connectionId = true ∧ reportThrows e tx = true

theorem finishSpan_of_batch {why : Option SpanFailure} (h : s.core.batch.isSome = true) :
    finishSpan span why s = (why, { s.remove span with core := s.core.coreCleanup.2 }) := by
  unfold finishSpan
  simp only [SyncState.coreCleanup_fst, h]
  rfl

/-- Dropping a span's connection only removes spans. -/
theorem dropSpanConnection_sublist (q : BlockQueue) :
    (dropSpanConnection e span q).spans.Sublist q.spans := by
  unfold dropSpanConnection
  split_ifs
  · exact eraseBlocks_sublist _ _
  · exact List.Sublist.refl _

theorem addNextSpan_takeUp (hnext : s.queue.getNextSpan = some span)
    (htake : triage e span s = .takeUp) :
    addNextSpan e s = ((addSpan e span s).1.map (.failed span), (addSpan e span s).2) := by
  unfold addNextSpan
  simp only [hnext, htake]

theorem addNextSpan_failed {why : SpanFailure} (h : (addNextSpan e s).1 = some (.failed span why)) :
    s.queue.getNextSpan = some span ∧ triage e span s = .takeUp ∧
      (addSpan e span s).1 = some why := by
  cases hnext : s.queue.getNextSpan with
  | none => simp [addNextSpan, hnext] at h
  | some next =>
    cases htriage : triage e next s with
    | discard => simp [addNextSpan, hnext, htriage] at h
    | unrequested => simp [addNextSpan, hnext, htriage] at h
    | wait => simp [addNextSpan, hnext, htriage] at h
    | ahead =>
      simp only [addNextSpan, hnext, htriage] at h
      split_ifs at h <;> simp at h
    | takeUp =>
      rw [addNextSpan_takeUp hnext htriage, Option.map_eq_some_iff] at h
      obtain ⟨why', hwhy, heq⟩ := h
      obtain ⟨rfl, rfl⟩ := SyncExit.failed.inj heq
      exact ⟨rfl, htriage, hwhy⟩

section Running

variable (hstop : ∀ i, e.stopping i = false) (hcancel : ∀ i, e.cancel i = false)

include hstop hcancel

/-- What becomes of a span that is taken up: it fails to be prepared and stays, or a refused
transaction cannot be reported and it stays, or it leaves the queue. -/
theorem addSpan_cases (span : Span) (s : Syncing) :
    (¬PrepareAccepts e.env span.blocks s.core ∧
      ((addSpan e span s).1 = some .prepareThrew ∨ (addSpan e span s).1 = some .prepare) ∧
      (addSpan e span s).2.queue = s.queue) ∨
    (∃ tx, RefusesTx e span s.core tx ∧ Unreportable e span tx ∧
      (addSpan e span s).1 = some (.reportThrew tx) ∧ (addSpan e span s).2.queue = s.queue) ∨
    (PrepareAccepts e.env span.blocks s.core ∧
      (∀ tx, RefusesTx e span s.core tx → ¬Unreportable e span tx) ∧
      OfCore (addSpan e span s).1 ∧ span ∉ (addSpan e span s).2.queue.spans ∧
      s.ShrinksTo (addSpan e span s).2) := by
  have haccepts : (∃ blocks, (s.core.corePrepare e.env e.cancel e.busy span.blocks).1 =
      .returned true blocks) ↔ _ := corePrepare_accepts e.busy hcancel
  have hprepared : ∀ blocks, (s.core.corePrepare e.env e.cancel e.busy span.blocks).1 =
      .returned true blocks → _ := fun blocks => corePrepare_prepared
  unfold addSpan RefusesTx
  generalize s.core.corePrepare e.env e.cancel e.busy span.blocks = r at *
  obtain ⟨exit, core⟩ := r
  cases exit with
  | threw => exact .inl ⟨fun h => absurd (haccepts.mpr h) (by simp), .inl rfl, rfl⟩
  | returned ok pblocks =>
    cases ok with
    | false => exact .inl ⟨fun h => absurd (haccepts.mpr h) (by simp), .inr rfl, rfl⟩
    | true =>
      obtain ⟨hblocks, hbatch⟩ := hprepared pblocks rfl
      have hlength : ¬(pblocks ≠ [] ∧ pblocks.length ≠ span.blocks.length) := by
        rintro ⟨hne, hlen⟩
        exact hblocks.elim hne hlen
      obtain ⟨hopen, hwhy⟩ := processBlocks_spec hstop pblocks 0 span.blocks core
      rw [hbatch] at hopen
      have hrefused : ∀ tx, (∃ pblocks' core', ((PrepareExit.returned true pblocks, core) :
          PrepareExit × SyncState) = (.returned true pblocks', core') ∧
          (processBlocks e pblocks' 0 span.blocks core').1 = some (.transaction tx)) →
          (processBlocks e pblocks 0 span.blocks core).1 = some (.transaction tx) := by
        rintro tx ⟨pblocks', core', heq, htx⟩
        obtain ⟨hexit, rfl⟩ := Prod.mk.inj heq
        obtain ⟨-, rfl⟩ := PrepareExit.returned.inj hexit
        exact htx
      simp only [if_neg hlength]
      generalize hr : processBlocks e pblocks 0 span.blocks core = r at *
      obtain ⟨why, core'⟩ := r
      -- every other verdict of the core ends in `finishSpan`, with the connection dropped or not
      have hfinish : ∀ q : BlockQueue, q.spans.Sublist s.queue.spans →
          OfCore (finishSpan span why ⟨core', q⟩).1 ∧
            span ∉ (finishSpan span why ⟨core', q⟩).2.queue.spans ∧
            s.ShrinksTo (finishSpan span why ⟨core', q⟩).2 := by
        intro q hq
        rw [finishSpan_of_batch hopen]
        exact ⟨hwhy, notMem_remove ⟨core', q⟩ span,
          List.Sublist.trans (Syncing.shrinksTo_remove ⟨core', q⟩ span) hq⟩
      have haccepted := haccepts.mp ⟨pblocks, rfl⟩
      have hdropped := hfinish (dropSpanConnection e span s.queue)
        (dropSpanConnection_sublist s.queue)
      rcases hwhy with rfl | ⟨tx, rfl⟩ | rfl | rfl
      · exact .inr (.inr ⟨haccepted, fun tx htx => (by cases hrefused tx htx),
          hfinish s.queue (List.Sublist.refl _)⟩)
      · simp only []
        split_ifs with hthrows
        · rw [Bool.and_eq_true] at hthrows
          exact .inr (.inl ⟨tx, ⟨pblocks, core, rfl, congrArg Prod.fst hr⟩, hthrows, rfl, rfl⟩)
        · refine .inr (.inr ⟨haccepted, fun tx' htx hunreportable => hthrows ?_, hdropped⟩)
          cases hrefused tx' htx
          rw [Bool.and_eq_true]
          exact hunreportable
      · exact .inr (.inr ⟨haccepted, fun tx htx => (by cases hrefused tx htx), hdropped⟩)
      · exact .inr (.inr ⟨haccepted, fun tx htx => (by cases hrefused tx htx), hdropped⟩)

/-- Adding a span to the chain only removes spans. -/
theorem addSpan_shrinks (span : Span) (s : Syncing) : s.ShrinksTo (addSpan e span s).2 := by
  rcases addSpan_cases hstop hcancel span s with
    ⟨-, -, hqueue⟩ | ⟨-, -, -, -, hqueue⟩ | ⟨-, -, -, -, hshrinks⟩
  · rw [Syncing.ShrinksTo, hqueue]
  · rw [Syncing.ShrinksTo, hqueue]
  · exact hshrinks

/-- A turn only removes spans, and one if it goes on. -/
theorem addNextSpan_spec (s : Syncing) : s.ShrinksTo (addNextSpan e s).2 ∧
    ((addNextSpan e s).1 = none →
      ∃ span ∈ s.queue.spans, span ∉ (addNextSpan e s).2.queue.spans) := by
  unfold addNextSpan
  cases hnext : s.queue.getNextSpan with
  | none => exact ⟨.refl s, by simp⟩
  | some span =>
    have hmem := mem_of_getNextSpan hnext
    simp only []
    cases htriage : triage e span s with
    | discard => exact ⟨s.shrinksTo_remove span, fun _ => ⟨span, hmem, notMem_remove s span⟩⟩
    | unrequested => exact ⟨s.shrinksTo_remove span, by simp⟩
    | wait => exact ⟨.refl s, by simp⟩
    | ahead =>
      split_ifs
      · exact ⟨eraseBlocks_sublist _ _, by simp⟩
      · exact ⟨.refl s, by simp⟩
    | takeUp =>
      refine ⟨addSpan_shrinks hstop hcancel span s, fun hnone => ⟨span, hmem, ?_⟩⟩
      rw [Option.map_eq_none_iff] at hnone
      rcases addSpan_cases hstop hcancel span s with
        ⟨-, hwhy, -⟩ | ⟨_, -, -, hwhy, -⟩ | ⟨-, -, -, hgone, -⟩
      · simp [hnone] at hwhy
      · simp [hnone] at hwhy
      · exact hgone

theorem addSpans_shrinks : ∀ (fuel : ℕ) (s : Syncing), s.ShrinksTo (addSpans e fuel s).2
  | 0, s => .refl s
  | fuel + 1, s => by
    have hturn := (addNextSpan_spec hstop hcancel s).1
    rw [addSpans]
    generalize addNextSpan e s = r at *
    obtain ⟨exit, s'⟩ := r
    cases exit with
    | none => exact hturn.trans (addSpans_shrinks fuel s')
    | some exit => exact hturn

/-- As many turns as there are spans are enough. -/
theorem addSpans_fuel : ∀ (fuel : ℕ) (s : Syncing), s.queue.spans.length ≤ fuel →
    addSpans e (fuel + 1) s = addSpans e fuel s
  | 0, s, hlen => by
    have hnil : s.queue.spans = [] := length_eq_zero_iff.mp (Nat.le_zero.mp hlen)
    simp [addSpans, addNextSpan, getNextSpan, hnil]
  | fuel + 1, s, hlen => by
    obtain ⟨hshrinks, htaken⟩ := addNextSpan_spec hstop hcancel s
    rw [addSpans, addSpans]
    generalize addNextSpan e s = r at *
    obtain ⟨exit, s'⟩ := r
    cases exit with
    | some exit => rfl
    | none =>
      obtain ⟨span, hmem, hgone⟩ := htaken rfl
      have hlt := hshrinks.length_lt hmem hgone
      exact addSpans_fuel fuel s' (by simp only [] at hlt; omega)

/-- A failed span stays queued exactly if it could not be prepared or its refused transaction could
not be reported. -/
theorem addSpans_failed {span : Span} {why : SpanFailure} : ∀ (fuel : ℕ) (s : Syncing),
    (addSpans e fuel s).1 = .failed span why →
      ((why = .prepareThrew ∨ why = .prepare ∨ ∃ tx, why = .reportThrew tx) ∧
        span ∈ (addSpans e fuel s).2.queue.spans) ∨
      (((∃ tx, why = .transaction tx) ∨ why = .block ∨ why = .orphaned) ∧
        span ∉ (addSpans e fuel s).2.queue.spans)
  | 0, s, h => by simp [addSpans] at h
  | fuel + 1, s, h => by
    rw [addSpans] at h ⊢
    cases hturn : addNextSpan e s with
    | mk exit s' =>
      simp only [hturn] at h
      cases exit with
      | none => exact addSpans_failed fuel s' h
      | some exit =>
        obtain ⟨hnext, htake, hwhy⟩ := addNextSpan_failed (by rw [hturn, ← h])
        have hs' : s' = (addSpan e span s).2 := by
          rw [addNextSpan_takeUp hnext htake] at hturn
          exact (congrArg Prod.snd hturn).symm
        have hqueued := mem_of_getNextSpan hnext
        simp only [hs']
        rcases addSpan_cases hstop hcancel span s with
          ⟨-, hstays, hqueue⟩ | ⟨tx, -, -, hstays, hqueue⟩ | ⟨-, -, hverdict, hgone, -⟩
        · rw [hqueue]
          rw [hwhy, Option.some_inj, Option.some_inj] at hstays
          exact .inl ⟨hstays.imp_right .inl, hqueued⟩
        · rw [hqueue]
          rw [hwhy, Option.some_inj] at hstays
          exact .inl ⟨.inr (.inr ⟨tx, hstays⟩), hqueued⟩
        · rw [hwhy] at hverdict
          simp only [OfCore, Option.some_inj, reduceCtorEq, false_or] at hverdict
          exact .inr ⟨hverdict, hgone⟩

end Running

/-- A span at the head of the queue that is taken up and fails is gone from the queue exactly when
its blocks could be prepared and the transaction that the core refuses, if any, could be
reported. -/
theorem failedSpan_gone_iff (e : SyncEnv) (s : Syncing) (span : Span)
    (hstop : ∀ i, e.stopping i = false) (hcancel : ∀ i, e.cancel i = false)
    (hnext : s.queue.getNextSpan = some span) (htake : triage e span s = .takeUp) :
    (∀ why, (tryAddNextBlocks e true s).1 = .failed span why →
      span ∉ (tryAddNextBlocks e true s).2.queue.spans) ↔
    PrepareAccepts e.env span.blocks s.core ∧
      ∀ tx, RefusesTx e span s.core tx → ¬Unreportable e span tx := by
  have hmem := mem_of_getNextSpan hnext
  obtain ⟨fuel, hfuel⟩ := Nat.exists_eq_succ_of_ne_zero (length_pos_of_mem hmem).ne'
  have hturn := addNextSpan_takeUp hnext htake
  rw [tryAddNextBlocks, if_pos rfl, hfuel]
  -- a failure after which the queue is as it was
  have hstays : ∀ why, (addSpan e span s).1 = some why → (addSpan e span s).2.queue = s.queue →
      ¬∀ why', (addSpans e (fuel + 1) s).1 = .failed span why' →
        span ∉ (addSpans e (fuel + 1) s).2.queue.spans := by
    intro why hwhy hqueue h
    rw [addSpans, hturn, hwhy] at h
    exact h why rfl (hqueue ▸ hmem)
  rcases addSpan_cases hstop hcancel span s with
    ⟨hrefused, hwhy, hqueue⟩ | ⟨tx, hrefused, hthrows, hwhy, hqueue⟩ |
      ⟨haccepts, hreported, -, hgone, -⟩
  · exact iff_of_false (hwhy.elim (fun h => hstays _ h hqueue) fun h => hstays _ h hqueue)
      fun h => hrefused h.1
  · exact iff_of_false (hstays _ hwhy hqueue) fun h => h.2 tx hrefused hthrows
  · refine iff_of_true (fun why _ => ?_) ⟨haccepts, hreported⟩
    rw [addSpans, hturn]
    cases hwhy : (addSpan e span s).1 with
    | some why => exact hgone
    | none =>
      intro hin
      exact hgone ((addSpans_shrinks hstop hcancel fuel _).subset hin)

end Sync

def idleHandlers : CoreHandlers where
  handleIncomingTxs s txs := (List.replicate txs.length false, s)
  handleIncomingBlock s _ _ := (⟨false, false⟩, s)
  length_txs _ _ := length_replicate
  batch_txs _ _ := rfl
  batch_block _ _ _ := rfl

/-- Every block blob is a block with one transaction on top of genesis; no transaction parses. -/
def unparsableTxEnv : SyncEnv where
  env :=
    { nonceEnv with
      parseBlock := fun _ => some { numberedBlock 1 1000 1 1 with txHashes := [7] }
      parseTxBase := fun _ => none }
  handlers := idleHandlers
  connected _ := true
  shouldDrop := false
  context := 0
  stopping _ := false
  cancel _ := false
  busy := 0
  unparsedThrows _ := true

def unparsableSpan : Span := ⟨1, [2], [⟨[], [⟨[0], 0⟩], false, 0⟩], 5, 1⟩

def unparsableQueued : Syncing where
  core := { bc := genesisChain }
  queue := ⟨[unparsableSpan], [2], [2], pairwise_singleton _ _⟩

theorem failedSpan_gone_iff_unparsableQueued :
    (∀ why, (tryAddNextBlocks unparsableTxEnv true unparsableQueued).1 =
        .failed unparsableSpan why →
      unparsableSpan ∉ (tryAddNextBlocks unparsableTxEnv true unparsableQueued).2.queue.spans) ↔
    PrepareAccepts unparsableTxEnv.env unparsableSpan.blocks unparsableQueued.core ∧
      ∀ tx, RefusesTx unparsableTxEnv unparsableSpan unparsableQueued.core tx →
        ¬Unreportable unparsableTxEnv unparsableSpan tx :=
  failedSpan_gone_iff unparsableTxEnv unparsableQueued unparsableSpan
    (fun _ => rfl) (fun _ => rfl) (by decide) (by decide)

/-- The span stays in the queue, and the next call takes it up and fails again. -/
theorem unparsable_span_taken_up_twice :
    unparsableQueued.queue.getNextSpan = some unparsableSpan ∧
    triage unparsableTxEnv unparsableSpan unparsableQueued = .takeUp ∧
    (tryAddNextBlocks unparsableTxEnv true unparsableQueued).1 = .failed unparsableSpan .prepare ∧
    unparsableSpan ∈ (tryAddNextBlocks unparsableTxEnv true unparsableQueued).2.queue.spans ∧
    (tryAddNextBlocks unparsableTxEnv true
      (tryAddNextBlocks unparsableTxEnv true unparsableQueued).2).1 =
        .failed unparsableSpan .prepare :=
  ⟨by decide, by decide, by decide, by decide, by decide⟩

theorem addSpans_failed_unparsableQueued :
    unparsableSpan ∈ (addSpans unparsableTxEnv 1 unparsableQueued).2.queue.spans := by
  have h : (addSpans unparsableTxEnv 1 unparsableQueued).1 = .failed unparsableSpan .prepare := by
    decide
  exact (addSpans_failed (fun _ => rfl) (fun _ => rfl) 1 _ h).elim And.right
    fun h => absurd h.1 (by simp)

end Nerva
