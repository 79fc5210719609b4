import Mathlib.Data.List.Nodup
import Nerva.BlockQueue
import Nerva.Lib.Runs

/-!
# What the queue's two sets of hashes say

`requested_hashes` and `have_blocks` mirror the spans as long as no hash that is erased with one
span is still listed by another, and no hash is put into `have_blocks` without blocks. Each call
keeps the sets exact just when it meets its part of this.
-/

namespace Nerva

open List

namespace BlockQueue

/-- The two sets are those of the hashes that some span, and some filled span, lists. -/
structure Exact (q : BlockQueue) : Prop where
  requested : ∀ h, q.requested h ↔ ∃ s ∈ q.spans, h ∈ s.hashes
  haveHash : ∀ h, q.haveHash h ↔ ∃ s ∈ q.spans, s.filled ∧ h ∈ s.hashes

section Spans

variable {q : BlockQueue} {s t span : Span}

theorem eq_of_startBlockHeight_eq (hs : s ∈ q.spans) (ht : t ∈ q.spans)
    (h : s.startBlockHeight = t.startBlockHeight) : s = t := by
  have hnodup : (q.spans.map (·.startBlockHeight)).Nodup :=
    pairwise_map.2 (q.increasing.imp Nat.ne_of_lt)
  exact inj_on_of_nodup_map hnodup hs ht h

theorem mem_insertSorted {spans : List Span}
    (h : spans.Pairwise fun a b => a.startBlockHeight < b.startBlockHeight) :
    s ∈ insertSorted span spans ↔
      s ∈ spans ∨ s = span ∧ ∀ t ∈ spans, t.startBlockHeight ≠ span.startBlockHeight := by
  induction h with
  | nil => simp [insertSorted]
  | @cons t spans ht _ ih =>
    unfold insertSorted
    split_ifs with hlt heq
    · have hnew : ∀ u ∈ t :: spans, u.startBlockHeight ≠ span.startBlockHeight := by
        intro u hu
        rcases mem_cons.1 hu with rfl | hu
        · omega
        · have := ht u hu
          omega
      rw [mem_cons, or_comm]
      simp only [and_iff_left hnew]
    · simp [heq]
    · rw [mem_cons, ih, mem_cons, or_assoc]
      simp [Ne.symm heq]

theorem mem_insert : s ∈ (q.insert span).spans ↔
    s ∈ q.spans ∨ s = span ∧ ∀ t ∈ q.spans, t.startBlockHeight ≠ span.startBlockHeight :=
  mem_insertSorted q.increasing

theorem requested_insert (h : Hash) : (q.insert span).requested h = q.requested h := rfl

theorem haveHash_insert (h : Hash) : (q.insert span).haveHash h = q.haveHash h := rfl

theorem requested_eraseBlocks (p : Span → Bool) (h : Hash) :
    (q.eraseBlocks p).requested h ↔ q.requested h ∧ ∀ s ∈ q.spans, p s → h ∉ s.hashes := by
  simp [requested, eraseBlocks]

theorem haveHash_eraseBlocks (p : Span → Bool) (h : Hash) :
    (q.eraseBlocks p).haveHash h ↔ q.haveHash h ∧ ∀ s ∈ q.spans, p s → h ∉ s.hashes := by
  simp [haveHash, eraseBlocks]

end Spans

section Calls

variable {q : BlockQueue} {p : Span → Bool} {s : Span}

/-- The spans to be erased share no hash with the others. -/
def Separate (q : BlockQueue) (p : Span → Bool) : Prop :=
  ∀ s ∈ q.spans, p s → ∀ t ∈ q.spans, p t = false → ∀ h ∈ s.hashes, h ∉ t.hashes

/-- Erasing spans keeps the sets exact exactly when they share no hash with the others. -/
theorem eraseBlocks_exact_iff (hq : q.Exact) (p : Span → Bool) :
    (q.eraseBlocks p).Exact ↔ q.Separate p := by
  constructor
  · intro hexact s hs hp t ht hpt h hsh hth
    have hlisted := (hexact.requested h).2 ⟨t, mem_eraseBlocks.2 ⟨ht, hpt⟩, hth⟩
    exact ((requested_eraseBlocks p h).1 hlisted).2 s hs hp hsh
  · intro hsep
    refine ⟨fun h => ?_, fun h => ?_⟩
    · rw [requested_eraseBlocks, hq.requested]
      constructor
      · rintro ⟨⟨t, ht, hth⟩, hout⟩
        refine ⟨t, mem_eraseBlocks.2 ⟨ht, ?_⟩, hth⟩
        exact Bool.eq_false_iff.2 fun hpt => hout t ht hpt hth
      · rintro ⟨t, ht, hth⟩
        obtain ⟨ht, hpt⟩ := mem_eraseBlocks.1 ht
        exact ⟨⟨t, ht, hth⟩, fun s hs hp hsh => hsep s hs hp t ht hpt h hsh hth⟩
    · rw [haveHash_eraseBlocks, hq.haveHash]
      constructor
      · rintro ⟨⟨t, ht, hfilled, hth⟩, hout⟩
        refine ⟨t, mem_eraseBlocks.2 ⟨ht, ?_⟩, hfilled, hth⟩
        exact Bool.eq_false_iff.2 fun hpt => hout t ht hpt hth
      · rintro ⟨t, ht, hfilled, hth⟩
        obtain ⟨ht, hpt⟩ := mem_eraseBlocks.1 ht
        exact ⟨⟨t, ht, hfilled, hth⟩, fun s hs hp hsh => hsep s hs hp t ht hpt h hsh hth⟩

theorem eraseBlocks_of_notMem (h : ∀ s ∈ q.spans, p s = false) : q.eraseBlocks p = q := by
  have hfilter : q.spans.filter p = [] := filter_eq_nil_iff.2 (by simpa using h)
  have hkept : (q.spans.filter fun s => !p s) = q.spans :=
    filter_eq_self.2 (by simpa using h)
  obtain ⟨spans, asked, arrived, hinc⟩ := q
  simp only [eraseBlocks]
  simp [hfilter, hkept]

/-- A span without hashes can be inserted. -/
theorem insert_exact (hq : q.Exact) {span : Span} (hnone : span.hashes = []) :
    (q.insert span).Exact := by
  refine ⟨fun h => ?_, fun h => ?_⟩
  · rw [requested_insert, hq.requested]
    constructor
    · rintro ⟨s, hs, hsh⟩
      exact ⟨s, mem_insert.2 (.inl hs), hsh⟩
    · rintro ⟨s, hs, hsh⟩
      rcases mem_insert.1 hs with hs | ⟨rfl, -⟩
      · exact ⟨s, hs, hsh⟩
      · simp [hnone] at hsh
  · rw [haveHash_insert, hq.haveHash]
    constructor
    · rintro ⟨s, hs, hsh⟩
      exact ⟨s, mem_insert.2 (.inl hs), hsh⟩
    · rintro ⟨s, hs, hfilled, hsh⟩
      rcases mem_insert.1 hs with hs | ⟨rfl, -⟩
      · exact ⟨s, hs, hfilled, hsh⟩
      · simp [hnone] at hsh

/-- `q'` is `q` with the span `s'` in the place of `s`. The hashes of `s` are erased from the two
sets, then `asked` is put into the one and `arrived` into the other. -/
structure Replaced (q : BlockQueue) (s s' : Span) (asked arrived : List Hash) (q' : BlockQueue) :
    Prop where
  mem : ∀ t, t ∈ q'.spans ↔ t ∈ q.spans ∧ t ≠ s ∨ t = s'
  requested : ∀ h, q'.requested h ↔ q.requested h ∧ h ∉ s.hashes ∨ h ∈ asked
  haveHash : ∀ h, q'.haveHash h ↔ q.haveHash h ∧ h ∉ s.hashes ∨ h ∈ arrived

theorem mem_eraseBlocks_at {t : Span} (hs : s ∈ q.spans) (hp : p s)
    (hstart : ∀ t, p t → t.startBlockHeight = s.startBlockHeight) :
    t ∈ (q.eraseBlocks p).spans ↔ t ∈ q.spans ∧ t ≠ s := by
  rw [mem_eraseBlocks]
  refine and_congr_right fun ht => ⟨?_, fun hne => ?_⟩
  · rintro hpt rfl
    simp [hp] at hpt
  · exact Bool.eq_false_iff.2 fun hpt => hne (eq_of_startBlockHeight_eq ht hs (hstart t hpt))

theorem replaced_of_erase (s' : Span) (p : Span → Bool) (asked arrived : List Hash)
    (hs : s ∈ q.spans) (hp : p s) (hstart : ∀ t, p t → t.startBlockHeight = s.startBlockHeight)
    (hsame : s'.startBlockHeight = s.startBlockHeight) :
    q.Replaced s s' asked arrived ({ q.eraseBlocks p with
      requestedHashes := (q.eraseBlocks p).requestedHashes ++ asked
      haveBlocks := (q.eraseBlocks p).haveBlocks ++ arrived }.insert s') := by
  have hgone : ∀ h, (∀ t ∈ q.spans, p t → h ∉ t.hashes) ↔ h ∉ s.hashes := by
    intro h
    refine ⟨fun hout => hout s hs hp, fun hout t ht hpt => ?_⟩
    rwa [eq_of_startBlockHeight_eq ht hs (hstart t hpt)]
  refine ⟨fun t => ?_, fun h => ?_, fun h => ?_⟩
  · rw [mem_insert]
    have hfree : ∀ u ∈ (q.eraseBlocks p).spans, u.startBlockHeight ≠ s'.startBlockHeight := by
      intro u hu heq
      obtain ⟨hu, hne⟩ := (mem_eraseBlocks_at hs hp hstart).1 hu
      exact hne (eq_of_startBlockHeight_eq hu hs (heq.trans hsame))
    rw [and_iff_left hfree]
    exact or_congr_left (mem_eraseBlocks_at hs hp hstart)
  · rw [requested_insert, requested, contains_eq_mem, decide_eq_true_iff, mem_append]
    refine or_congr_left ?_
    rw [← hgone, ← requested_eraseBlocks, requested, contains_eq_mem, decide_eq_true_iff]
  · rw [haveHash_insert, haveHash, contains_eq_mem, decide_eq_true_iff, mem_append]
    refine or_congr_left ?_
    rw [← hgone, ← haveHash_eraseBlocks, haveHash, contains_eq_mem, decide_eq_true_iff]

section Replaced

variable {s s' : Span} {asked arrived : List Hash} {q' : BlockQueue}

/-- The hash is listed by another span. -/
def ListedBeside (q : BlockQueue) (s : Span) (h : Hash) : Prop :=
  ∃ t ∈ q.spans, t ≠ s ∧ h ∈ t.hashes

/-- The hash is held by another span that is filled. -/
def HeldBeside (q : BlockQueue) (s : Span) (h : Hash) : Prop :=
  ∃ t ∈ q.spans, t ≠ s ∧ t.filled ∧ h ∈ t.hashes

variable (hr : q.Replaced s s' asked arrived q')

include hr

theorem Replaced.requested_iff (hq : q.Exact) (h : Hash) :
    q'.requested h ↔ q.ListedBeside s h ∧ h ∉ s.hashes ∨ h ∈ asked := by
  rw [hr.requested, hq.requested]
  refine or_congr_left ⟨?_, ?_⟩
  · rintro ⟨⟨t, ht, hth⟩, hout⟩
    exact ⟨⟨t, ht, fun heq => hout (heq ▸ hth), hth⟩, hout⟩
  · rintro ⟨⟨t, ht, -, hth⟩, hout⟩
    exact ⟨⟨t, ht, hth⟩, hout⟩

theorem Replaced.haveHash_iff (hq : q.Exact) (h : Hash) :
    q'.haveHash h ↔ q.HeldBeside s h ∧ h ∉ s.hashes ∨ h ∈ arrived := by
  rw [hr.haveHash, hq.haveHash]
  refine or_congr_left ⟨?_, ?_⟩
  · rintro ⟨⟨t, ht, hfilled, hth⟩, hout⟩
    exact ⟨⟨t, ht, fun heq => hout (heq ▸ hth), hfilled, hth⟩, hout⟩
  · rintro ⟨⟨t, ht, -, hfilled, hth⟩, hout⟩
    exact ⟨⟨t, ht, hfilled, hth⟩, hout⟩

theorem Replaced.listed_iff (h : Hash) :
    (∃ t ∈ q'.spans, h ∈ t.hashes) ↔ q.ListedBeside s h ∨ h ∈ s'.hashes := by
  simp only [hr.mem, or_and_right, exists_or, exists_eq_left, and_assoc, ListedBeside]

theorem Replaced.held_iff (h : Hash) :
    (∃ t ∈ q'.spans, t.filled ∧ h ∈ t.hashes) ↔
      q.HeldBeside s h ∨ s'.filled ∧ h ∈ s'.hashes := by
  simp only [hr.mem, or_and_right, exists_or, exists_eq_left, and_assoc, HeldBeside]

/-- When replacing a span keeps the sets exact. -/
theorem Replaced.exact_iff (hq : q.Exact) (hasked : ∀ h, h ∈ asked ↔ h ∈ s'.hashes) :
    q'.Exact ↔ (∀ h ∈ s.hashes, q.ListedBeside s h → h ∈ s'.hashes) ∧
      ∀ h, (q.HeldBeside s h ∧ h ∉ s.hashes ∨ h ∈ arrived) ↔
        (q.HeldBeside s h ∨ s'.filled ∧ h ∈ s'.hashes) := by
  have hexact : q'.Exact ↔
      (∀ h, (q.ListedBeside s h ∧ h ∉ s.hashes ∨ h ∈ s'.hashes) ↔
        (q.ListedBeside s h ∨ h ∈ s'.hashes)) ∧
      ∀ h, (q.HeldBeside s h ∧ h ∉ s.hashes ∨ h ∈ arrived) ↔
        (q.HeldBeside s h ∨ s'.filled ∧ h ∈ s'.hashes) := by
    refine ⟨fun h' => ⟨fun h => ?_, fun h => ?_⟩, fun h' => ⟨fun h => ?_, fun h => ?_⟩⟩
    · rw [← hasked, ← hr.requested_iff hq, h'.requested, hr.listed_iff, hasked]
    · rw [← hr.haveHash_iff hq, h'.haveHash, hr.held_iff]
    · rw [hr.requested_iff hq, hasked, h'.1, hr.listed_iff]
    · rw [hr.haveHash_iff hq, h'.2, hr.held_iff]
  rw [hexact]
  refine and_congr_left fun _ => ⟨fun h' h hsh hl => ?_, fun h' h => ⟨?_, ?_⟩⟩
  · rcases (h' h).2 (.inl hl) with ⟨-, hout⟩ | hin
    · exact absurd hsh hout
    · exact hin
  · rintro (⟨hl, -⟩ | hin)
    · exact .inl hl
    · exact .inr hin
  · rintro (hl | hin)
    · by_cases hsh : h ∈ s.hashes
      · exact .inr (h' h hsh hl)
      · exact .inl ⟨hl, hsh⟩
    · exact .inr hin

end Replaced

section Find

variable {startHeight : ℕ} {connectionId : ConnectionId} (hashes : List Hash) {s : Span}

theorem find?_startBlockHeight {p : Span → Bool} (hs : s ∈ q.spans) (hp : p s)
    (hstart : ∀ t, p t → t.startBlockHeight = s.startBlockHeight) : q.spans.find? p = some s := by
  obtain ⟨t, hf⟩ := Option.isSome_iff_exists.1 (find?_isSome.2 ⟨s, hs, hp⟩)
  rw [hf, eq_of_startBlockHeight_eq (mem_of_find?_eq_some hf) hs
    (hstart t (find?_some hf))]

theorem setSpanHashes_replaced (hs : s ∈ q.spans) (hstart : s.startBlockHeight = startHeight)
    (hconn : s.connectionId = connectionId) :
    q.Replaced s { s with hashes } hashes []
      (q.setSpanHashes startHeight connectionId hashes) := by
  have hp : (s.startBlockHeight = startHeight && s.connectionId = connectionId) = true := by
    simp [hstart, hconn]
  have hsame : ∀ t : Span,
      (t.startBlockHeight = startHeight && t.connectionId = connectionId) = true →
      t.startBlockHeight = s.startBlockHeight := by
    simp +contextual [hstart]
  have hr := replaced_of_erase { s with hashes } _ hashes [] hs hp hsame rfl
  simpa only [setSpanHashes, find?_startBlockHeight hs hp hsame, append_nil] using hr

theorem setSpanHashes_of_notMem (h : ∀ s ∈ q.spans,
    ¬(s.startBlockHeight = startHeight ∧ s.connectionId = connectionId)) :
    q.setSpanHashes startHeight connectionId hashes = q := by
  have hfind : q.spans.find? (fun t =>
      t.startBlockHeight = startHeight && t.connectionId = connectionId) = none :=
    find?_eq_none.2 (by simpa using h)
  simp only [setSpanHashes, hfind]

theorem addBlocks_replaced (bcel : List BlockCompleteEntry) (hs : s ∈ q.spans) :
    q.Replaced s ⟨s.startBlockHeight, s.hashes, bcel, connectionId, bcel.length⟩
      (s.hashes ++ s.hashes) s.hashes (q.addBlocks s.startBlockHeight bcel connectionId) := by
  have hp : decide (s.startBlockHeight = s.startBlockHeight) = true := by simp
  have hsame : ∀ t : Span, decide (t.startBlockHeight = s.startBlockHeight) = true →
      t.startBlockHeight = s.startBlockHeight := by simp
  -- the span is erased, one without hashes inserted, and its hashes are set last
  have hr := replaced_of_erase (q := q) ⟨s.startBlockHeight, [], bcel, connectionId, bcel.length⟩ _
    s.hashes s.hashes hs hp hsame rfl
  have hset := setSpanHashes_replaced s.hashes ((hr.mem _).2 (.inr rfl)) rfl rfl
  unfold addBlocks removeSpan
  simp only [find?_startBlockHeight hs hp hsame]
  refine ⟨fun t => ?_, fun h => ?_, fun h => ?_⟩
  · refine (hset.mem t).trans (or_congr_left ?_)
    rw [hr.mem]
    constructor
    · rintro ⟨ht | rfl, hne⟩
      · exact ht
      · exact absurd rfl hne
    · rintro ⟨ht, hne⟩
      refine ⟨.inl ⟨ht, hne⟩, ?_⟩
      rintro rfl
      exact hne (eq_of_startBlockHeight_eq ht hs rfl)
  · refine (hset.requested h).trans ?_
    rw [hr.requested]
    simp
  · refine (hset.haveHash h).trans ?_
    rw [hr.haveHash]
    simp

theorem addBlocks_of_notMem {height : ℕ} {bcel : List BlockCompleteEntry}
    (h : ∀ s ∈ q.spans, s.startBlockHeight ≠ height) :
    q.addBlocks height bcel connectionId =
      q.insert ⟨height, [], bcel, connectionId, bcel.length⟩ := by
  have hfind : q.spans.find? (fun t => t.startBlockHeight = height) = none :=
    find?_eq_none.2 (by simpa using h)
  have herase : q.eraseBlocks (fun t => t.startBlockHeight = height) = q :=
    eraseBlocks_of_notMem (by simpa using h)
  simp only [addBlocks, removeSpan, hfind, Option.map_none, herase]

end Find

end Calls

section Runs

variable {q : BlockQueue}

/-- The hashes of the span at this height, of this connection, can be set to `hashes`: no other
filled span lists what it listed so far, and another one only if it is among the new ones. A filled
span gets only hashes that other filled spans list. -/
def SetSafe (q : BlockQueue) (startHeight : ℕ) (connectionId : ConnectionId) (hashes : List Hash) :
    Prop :=
  ∀ s ∈ q.spans, s.startBlockHeight = startHeight → s.connectionId = connectionId →
    (∀ h ∈ s.hashes, q.ListedBeside s h → h ∈ hashes) ∧ (∀ h ∈ s.hashes, ¬q.HeldBeside s h) ∧
      (s.filled → ∀ h ∈ hashes, q.HeldBeside s h)

/-- The call keeps the sets exact. A call that erases spans needs them separate from the others; one
that adds an empty list of blocks to a span, that other filled spans list its hashes. -/
def Safe (q : BlockQueue) : Op → Prop
  | .addBlocks height bcel _ => bcel = [] →
      ∀ s ∈ q.spans, s.startBlockHeight = height → ∀ h ∈ s.hashes, q.HeldBeside s h
  | .addBlocksScheduled _ _ _ => True
  | .reserveSpan r => ∀ start hashes, q.reservation r = some (start, hashes) →
      q.SetSafe start r.connectionId hashes
  | .setSpanHashes startHeight connectionId hashes => q.SetSafe startHeight connectionId hashes
  | .removeSpan start => q.Separate fun s => s.startBlockHeight = start
  | .removeSpans connectionId start => q.Separate fun s =>
      s.connectionId = connectionId && decide (s.startBlockHeight ≤ start)
  | .flushSpans connectionId all => q.Separate fun s =>
      s.connectionId = connectionId && (all || s.blocks.isEmpty)
  | .flushStaleSpans liveConnections => q.Separate fun s =>
      s.blocks.isEmpty && !liveConnections.contains s.connectionId

/-- When `set_span_hashes` keeps the sets exact. -/
theorem setSpanHashes_exact_iff (hq : q.Exact) (startHeight : ℕ) (connectionId : ConnectionId)
    (hashes : List Hash) :
    (q.setSpanHashes startHeight connectionId hashes).Exact ↔
      q.SetSafe startHeight connectionId hashes := by
  by_cases hfound : ∃ s ∈ q.spans, s.startBlockHeight = startHeight ∧ s.connectionId = connectionId
  · obtain ⟨s, hs, hstart, hconn⟩ := hfound
    have hsafe : q.SetSafe startHeight connectionId hashes ↔
        (∀ h ∈ s.hashes, q.ListedBeside s h → h ∈ hashes) ∧ (∀ h ∈ s.hashes, ¬q.HeldBeside s h) ∧
          (s.filled → ∀ h ∈ hashes, q.HeldBeside s h) := by
      refine ⟨fun h => h s hs hstart hconn, fun h t ht hts _ => ?_⟩
      rwa [eq_of_startBlockHeight_eq ht hs (hts.trans hstart.symm)]
    rw [hsafe, (setSpanHashes_replaced hashes hs hstart hconn).exact_iff hq fun _ => Iff.rfl]
    refine and_congr_right fun _ => ?_
    simp only [not_mem_nil, or_false]
    constructor
    · intro h'
      refine ⟨fun h hsh hheld => ((h' h).2 (.inl hheld)).2 hsh, fun hfilled h hin => ?_⟩
      exact ((h' h).2 (.inr ⟨hfilled, hin⟩)).1
    · rintro ⟨hout, hin⟩ h
      refine ⟨fun hheld => .inl hheld.1, ?_⟩
      have hheld : q.HeldBeside s h → q.HeldBeside s h ∧ h ∉ s.hashes :=
        fun hheld => ⟨hheld, fun hsh => hout h hsh hheld⟩
      rintro (hh | ⟨hfilled, hnew⟩)
      · exact hheld hh
      · exact hheld (hin hfilled h hnew)
  · have hnone : ∀ s ∈ q.spans,
        ¬(s.startBlockHeight = startHeight ∧ s.connectionId = connectionId) :=
      fun s hs h => hfound ⟨s, hs, h⟩
    rw [setSpanHashes_of_notMem hashes hnone]
    exact iff_of_true hq fun s hs hstart hconn => absurd ⟨hstart, hconn⟩ (hnone s hs)

/-- When `add_blocks` keeps the sets exact. -/
theorem addBlocks_exact_iff (hq : q.Exact) (height : ℕ) (bcel : List BlockCompleteEntry)
    (connectionId : ConnectionId) :
    (q.addBlocks height bcel connectionId).Exact ↔
      q.Safe (.addBlocks height bcel connectionId) := by
  by_cases hfound : ∃ s ∈ q.spans, s.startBlockHeight = height
  · obtain ⟨s, hs, rfl⟩ := hfound
    have hsafe : q.Safe (.addBlocks s.startBlockHeight bcel connectionId) ↔
        (bcel = [] → ∀ h ∈ s.hashes, q.HeldBeside s h) := by
      refine ⟨fun h hnil => h hnil s hs rfl, fun h hnil t ht hts => ?_⟩
      rw [eq_of_startBlockHeight_eq ht hs hts]
      exact h hnil
    rw [hsafe, (addBlocks_replaced bcel hs).exact_iff hq (by simp)]
    rw [and_iff_right fun h hsh _ => hsh]
    have hfilled : (⟨s.startBlockHeight, s.hashes, bcel, connectionId, bcel.length⟩ : Span).filled ↔
        bcel ≠ [] := by
      simp [Span.filled]
    constructor
    · intro h' hnil h hsh
      rcases (h' h).1 (.inr hsh) with hheld | ⟨hf, -⟩
      · exact hheld
      · exact absurd hnil (hfilled.1 hf)
    · intro h' h
      constructor
      · rintro (⟨hheld, -⟩ | hsh)
        · exact .inl hheld
        · by_cases hnil : bcel = []
          · exact .inl (h' hnil h hsh)
          · exact .inr ⟨hfilled.2 hnil, hsh⟩
      · rintro (hheld | ⟨-, hsh⟩)
        · by_cases hsh : h ∈ s.hashes
          · exact .inr hsh
          · exact .inl ⟨hheld, hsh⟩
        · exact .inr hsh
  · have hnone : ∀ s ∈ q.spans, s.startBlockHeight ≠ height := fun s hs h => hfound ⟨s, hs, h⟩
    rw [addBlocks_of_notMem hnone]
    exact iff_of_true (insert_exact hq rfl) fun _ s hs hstart => absurd hstart (hnone s hs)

theorem addBlocksScheduled_exact (hq : q.Exact) (height nblocks : ℕ) (connectionId : ConnectionId) :
    (q.addBlocksScheduled height nblocks connectionId).Exact := by
  unfold addBlocksScheduled
  split_ifs
  · exact hq
  · exact insert_exact hq rfl

theorem setSafe_addBlocksScheduled_iff (height nblocks : ℕ) (connectionId : ConnectionId)
    (hashes : List Hash) :
    (q.addBlocksScheduled height nblocks connectionId).SetSafe height connectionId hashes ↔
      q.SetSafe height connectionId hashes := by
  unfold addBlocksScheduled
  split_ifs
  · rfl
  · by_cases hfound : ∃ s ∈ q.spans, s.startBlockHeight = height
    · -- a span at this height stays as it is
      obtain ⟨t, ht, hstart⟩ := hfound
      have hmem : ∀ s, s ∈ (q.insert ⟨height, [], [], connectionId, nblocks⟩).spans ↔ s ∈ q.spans :=
        fun s => mem_insert.trans (or_iff_left fun h => h.2 t ht hstart)
      simp only [SetSafe, ListedBeside, HeldBeside, hmem]
    · have hnone : ∀ s ∈ q.spans, s.startBlockHeight ≠ height := fun s hs h => hfound ⟨s, hs, h⟩
      refine iff_of_true (fun s hs hstart _ => ?_) fun s hs hstart => absurd hstart (hnone s hs)
      rcases mem_insert.1 hs with hs | ⟨rfl, -⟩
      · exact absurd hstart (hnone s hs)
      · simp [Span.filled]

/-- A step keeps the sets exact exactly when it is safe. -/
theorem step_exact_iff (hq : q.Exact) (op : Op) : (q.step op).Exact ↔ q.Safe op := by
  cases op with
  | addBlocks height bcel connectionId => exact addBlocks_exact_iff hq height bcel connectionId
  | addBlocksScheduled height nblocks connectionId =>
    exact iff_of_true (addBlocksScheduled_exact hq height nblocks connectionId) trivial
  | reserveSpan r =>
    simp only [step, reserveSpan, Safe]
    rcases q.reservation r with _ | ⟨start, hashes⟩
    · simp [hq]
    · simp only [Option.some.injEq, Prod.mk.injEq, and_imp, forall_eq', forall_apply_eq_imp_iff]
      rw [setSpanHashes_exact_iff (addBlocksScheduled_exact hq _ _ _),
        setSafe_addBlocksScheduled_iff]
  | setSpanHashes startHeight connectionId hashes =>
    exact setSpanHashes_exact_iff hq startHeight connectionId hashes
  | removeSpan start => exact eraseBlocks_exact_iff hq _
  | removeSpans connectionId start => exact eraseBlocks_exact_iff hq _
  | flushSpans connectionId all => exact eraseBlocks_exact_iff hq _
  | flushStaleSpans liveConnections => exact eraseBlocks_exact_iff hq _

def SafeRun : BlockQueue → List Op → Prop :=
  Runs.SafeRun (fun q op => some (step q op)) Safe

theorem exact_empty : empty.Exact :=
  ⟨fun h => by simp [empty, requested], fun h => by simp [empty, haveHash]⟩

/-- A run keeps the sets exact exactly when each of its steps is safe. -/
theorem run_exact_iff (ops : List Op) {q : BlockQueue} (hq : q.Exact) :
    (∀ ops', ops' <+: ops → (q.run ops').Exact) ↔ q.SafeRun ops :=
  Runs.forall_prefix_foldl_good_iff Safe step (fun q (hq : q.Exact) => hq)
    (fun _ op hq (_ : True) => step_exact_iff hq op)
    (fun _ _ _ _ hstep => hstep) ops q hq fun _ _ => trivial

/-- In every state a hash is requested just when a span lists it and had just when a filled span
does, if and only if every call of the run is safe. -/
theorem run_empty_exact_iff (ops : List Op) :
    (∀ ops', ops' <+: ops → (empty.run ops').Exact) ↔ empty.SafeRun ops :=
  run_exact_iff ops exact_empty

def offer (connectionId : ConnectionId) (start n maxBlocks : ℕ) : SpanRequest where
  firstBlockHeight := start
  lastBlockHeight := start + n - 1
  maxBlocks := maxBlocks
  connectionId := connectionId
  syncPrunedBlocks := false
  localPruningSeed := 0
  pruningSeed := 0
  blockchainHeight := 100
  blockHashes := (List.range' start n).map fun k => (k, 0)

/-- Two spans share hashes, and the first one is removed. -/
theorem removeSpan_not_exact :
    ¬(empty.run
        [.reserveSpan (offer 1 10 6 3), .reserveSpan (offer 2 8 8 5), .removeSpan 8]).Exact := by
  intro hexact
  have hlisted : ∃ s ∈ (empty.run [.reserveSpan (offer 1 10 6 3), .reserveSpan (offer 2 8 8 5),
      .removeSpan 8]).spans, 10 ∈ s.hashes := by decide
  exact absurd ((hexact.requested 10).2 hlisted) (by decide)

end Runs

end BlockQueue

end Nerva
