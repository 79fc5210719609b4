import Nerva.Proofs.BlockQueue

/-!
# Spans of one chain

Peers that announce one chain offer the hashes of its blocks. `reserve_span` skips those at the
front that were asked for and then takes what follows up to its limit without another look, so that
spans can overlap.
-/

namespace Nerva

open List

/-- The span reserves the height. -/
def Span.Covers (s : Span) (k : ℕ) : Prop :=
  s.startBlockHeight ≤ k ∧ k < s.startBlockHeight + s.nblocks

namespace BlockQueue

/-- No height is reserved by two spans. -/
def RangesDisjoint (q : BlockQueue) : Prop :=
  ∀ s ∈ q.spans, ∀ t ∈ q.spans, ∀ k, s.Covers k → t.Covers k → s = t

section Reservation

variable {q : BlockQueue} {r : SpanRequest} {start : ℕ} {hashes : List Hash}

theorem takeHashes_prefix (firstIsPruned : Bool) : ∀ (height n : ℕ) (l : List (Hash × UInt64)),
    r.takeHashes firstIsPruned height n l <+: l.map (·.1)
  | _, 0, _ => by simp [SpanRequest.takeHashes]
  | _, _ + 1, [] => by simp [SpanRequest.takeHashes]
  | height, n + 1, (hash, weight) :: rest => by
    unfold SpanRequest.takeHashes
    split_ifs
    · simpa using takeHashes_prefix firstIsPruned (height + 1) n rest
    · exact nil_prefix

theorem le_nextUnpruned (height : ℕ) : height ≤ r.nextUnpruned height := by
  unfold SpanRequest.nextUnpruned
  simp only []
  split_ifs with h
  · simp only [Bool.and_eq_true, decide_eq_true_eq] at h
    omega
  · exact Nat.le_refl height

theorem head?_drop_countRequested (q : BlockQueue) (l : List (Hash × UInt64)) {x : Hash × UInt64}
    (h : (l.drop (q.countRequested l)).head? = some x) : q.requested x.1 = false := by
  have hdrop : l.drop (q.countRequested l) = l.dropWhile fun x => q.requested x.1 := by
    have hsplit :
        (l.takeWhile (fun x => q.requested x.1) ++ l.dropWhile fun x => q.requested x.1).drop
        (q.countRequested l) = l.dropWhile fun x => q.requested x.1 := drop_left
    rwa [takeWhile_append_dropWhile] at hsplit
  rw [hdrop] at h
  have := head?_dropWhile_not (fun x => q.requested x.1) l
  rw [h] at this
  exact this

/-- A reservation starts at a block that is not requested, and takes ids in their order. -/
theorem reservation_eq_some (h : q.reservation r = some (start, hashes)) :
    r.startHeight ≤ start ∧ hashes <+: (r.blockHashes.drop (start - r.startHeight)).map (·.1) ∧
      ∃ hash rest, hashes = hash :: rest ∧ q.requested hash = false := by
  unfold reservation at h
  simp only [] at h
  split_ifs at h with hargs hout
  generalize hnext :
    r.nextUnpruned (r.startHeight + q.countRequested r.blockHashes) = next at h hout
  have hle : r.startHeight + q.countRequested r.blockHashes ≤ next := hnext ▸ le_nextUnpruned _
  split at h
  · simp at h
  · rename_i l hne
    obtain ⟨rfl, rfl⟩ := h
    generalize hrest : r.blockHashes.drop (next - r.startHeight) = rest at *
    have hdrop : r.blockHashes.drop (next + q.countRequested rest - r.startHeight) =
        rest.drop (q.countRequested rest) := by
      rw [← hrest, drop_drop]
      congr 1
      omega
    have hpre := takeHashes_prefix (r := r) (r.syncPrunedBlocks &&
      !hasUnprunedBlock (next + q.countRequested rest) r.blockchainHeight r.localPruningSeed)
      (next + q.countRequested rest) r.maxBlocks (rest.drop (q.countRequested rest))
    refine ⟨by omega, hdrop ▸ hpre, ?_⟩
    rcases hl : r.takeHashes _ _ _ _ with _ | ⟨hash, tail⟩
    · exact absurd hl hne
    · rw [hl] at hpre
      rcases hd : rest.drop (q.countRequested rest) with _ | ⟨x, xs⟩
      · simp [hd] at hpre
      · rw [hd] at hpre
        refine ⟨hash, tail, rfl, ?_⟩
        rw [(cons_prefix_cons.1 hpre).1]
        exact head?_drop_countRequested q rest (by rw [hd]; rfl)

/-- The caller has a span in the queue with the hashes offered for its heights. -/
def Recorded (q : BlockQueue) (r : SpanRequest) (s n : ℕ) : Prop :=
  ∃ span ∈ q.spans, span.startBlockHeight = s ∧ span.nblocks = n ∧
    span.connectionId = r.connectionId ∧
    span.hashes = ((r.blockHashes.drop (s - r.startHeight)).take n).map (·.1)

/-- What `reserve_span` returns is recorded exactly when the span that is there already, if any, is
the same reservation. -/
theorem reserveSpan_recorded_iff {s n : ℕ} (h : (q.reserveSpan r).1 = (s, n)) (hn : 0 < n) :
    (q.reserveSpan r).2.Recorded r s n ↔ ∀ t ∈ q.spans, t.startBlockHeight = s →
      t.connectionId = r.connectionId ∧ t.nblocks = n := by
  rcases hres : q.reservation r with _ | ⟨start, hashes⟩
  · simp only [reserveSpan, hres, Prod.mk.injEq] at h
    omega
  obtain ⟨-, hpre, -⟩ := reservation_eq_some hres
  simp only [reserveSpan, hres] at h ⊢
  obtain ⟨rfl, rfl⟩ := Prod.mk.inj h
  -- the one span that starts there when the hashes are set
  have hat : ∃ x ∈ (q.addBlocksScheduled start hashes.length r.connectionId).spans,
      x.startBlockHeight = start ∧ ((∀ t ∈ q.spans, t.startBlockHeight = start →
        t.connectionId = r.connectionId ∧ t.nblocks = hashes.length) ↔
          x.connectionId = r.connectionId ∧ x.nblocks = hashes.length) := by
    rw [addBlocksScheduled, if_neg (by omega)]
    by_cases htaken : ∃ t ∈ q.spans, t.startBlockHeight = start
    · obtain ⟨t, ht, rfl⟩ := htaken
      refine ⟨t, mem_insert.2 (.inl ht), rfl, fun h => h t ht rfl, fun h u hu hstart => ?_⟩
      rwa [eq_of_startBlockHeight_eq hu ht hstart]
    · have hfree : ∀ t ∈ q.spans, t.startBlockHeight ≠ start := fun t ht h => htaken ⟨t, ht, h⟩
      exact ⟨_, mem_insert.2 (.inr ⟨rfl, hfree⟩), rfl, iff_of_true
        (fun t ht hstart => absurd hstart (hfree t ht)) ⟨rfl, rfl⟩⟩
  obtain ⟨x, hx, rfl, hiff⟩ := hat
  rw [hiff]
  by_cases hown : x.connectionId = r.connectionId
  · have hset := setSpanHashes_replaced hashes hx rfl hown
    constructor
    · rintro ⟨u, hu, hstart, hlen, -⟩
      rcases (hset.mem u).1 hu with ⟨hu, hne⟩ | rfl
      · exact absurd (eq_of_startBlockHeight_eq hu hx hstart) hne
      · exact ⟨hown, hlen⟩
    · rintro ⟨-, hlen⟩
      refine ⟨_, (hset.mem _).2 (.inr rfl), rfl, hlen, hown, ?_⟩
      rw [map_take]
      exact prefix_iff_eq_take.1 hpre
  · -- another connection's span stays as it is
    have hone : ∀ u ∈ (q.addBlocksScheduled x.startBlockHeight hashes.length r.connectionId).spans,
        ¬(u.startBlockHeight = x.startBlockHeight ∧ u.connectionId = r.connectionId) := by
      rintro u hu ⟨hstart, hconn⟩
      exact hown (eq_of_startBlockHeight_eq hu hx hstart ▸ hconn)
    rw [setSpanHashes_of_notMem hashes hone]
    refine iff_of_false ?_ fun h => hown h.1
    rintro ⟨u, hu, hstart, -, hconn, -⟩
    exact hone u hu ⟨hstart, hconn⟩

theorem reserveSpan_recorded_empty :
    (empty.reserveSpan (offer 1 8 6 2)).2.Recorded (offer 1 8 6 2) 8 2 :=
  (reserveSpan_recorded_iff (by decide) (by decide)).2 (by decide)

/-- A peer that offers other hashes from the same height is told to ask for them. -/
theorem reserveSpan_not_recorded :
    let q := (empty.reserveSpan (offer 1 8 6 2)).2
    let r := { offer 2 8 3 3 with blockHashes := [(100, 0), (101, 0), (102, 0)] }
    (q.reserveSpan r).1 = (8, 3) ∧ ∀ span ∈ (q.reserveSpan r).2.spans, span.connectionId ≠ 2 := by
  decide

end Reservation

section Chain

variable {chain : ℕ → Hash} {q : BlockQueue}

/-- The peer offers the blocks of the chain. -/
def Offers (chain : ℕ → Hash) (r : SpanRequest) : Prop :=
  ∀ i x, r.blockHashes[i]? = some x → x.1 = chain (r.startHeight + i)

/-- The spans list the blocks of the chain. -/
def Follows (chain : ℕ → Hash) (q : BlockQueue) : Prop :=
  ∀ s ∈ q.spans, 0 < s.nblocks ∧ s.hashes = (range' s.startBlockHeight s.nblocks).map chain

theorem reservation_hashes {r : SpanRequest} {start : ℕ} {hashes : List Hash}
    (hoffers : Offers chain r) (h : q.reservation r = some (start, hashes)) :
    hashes = (range' start hashes.length).map chain := by
  obtain ⟨hle, hpre, -⟩ := reservation_eq_some h
  refine ext_getElem (by simp) fun i hi _ => ?_
  have hget := prefix_iff_getElem?.1 hpre i hi
  rw [getElem?_map, getElem?_drop, Option.map_eq_some_iff] at hget
  obtain ⟨x, hx, hhash⟩ := hget
  rw [← hhash, hoffers _ x hx, getElem_map, getElem_range']
  congr 1
  omega

theorem Follows.mem_hashes_iff (hf : Follows chain q) {s : Span} (hs : s ∈ q.spans) {h : Hash} :
    h ∈ s.hashes ↔ ∃ k, s.Covers k ∧ chain k = h := by
  rw [(hf s hs).2, mem_map]
  exact exists_congr fun k => and_congr_left' mem_range'_1

theorem Follows.separate (hchain : chain.Injective) (hf : Follows chain q) (hd : q.RangesDisjoint)
    (p : Span → Bool) : q.Separate p := by
  intro s hs hp t ht hpt h hsh hth
  obtain ⟨k, hk, rfl⟩ := (hf.mem_hashes_iff hs).1 hsh
  obtain ⟨k', hk', heq⟩ := (hf.mem_hashes_iff ht).1 hth
  rw [hchain heq] at hk'
  have hst := hd s hs t ht k hk hk'
  rw [hst, hpt] at hp
  exact Bool.false_ne_true hp

/-- The spans are those of one chain, they do not overlap, and the sets of hashes are theirs. -/
structure Orderly (chain : ℕ → Hash) (q : BlockQueue) : Prop where
  exact : q.Exact
  follows : Follows chain q
  disjoint : q.RangesDisjoint

theorem Orderly.eraseBlocks (hchain : chain.Injective) (hq : Orderly chain q) (p : Span → Bool) :
    Orderly chain (q.eraseBlocks p) where
  exact := (eraseBlocks_exact_iff hq.exact p).2 (hq.follows.separate hchain hq.disjoint p)
  follows s hs := hq.follows s (mem_eraseBlocks.1 hs).1
  disjoint s hs t ht := hq.disjoint s (mem_eraseBlocks.1 hs).1 t (mem_eraseBlocks.1 ht).1

section Reserve

variable {r : SpanRequest} {start : ℕ} {hashes : List Hash} (hq : Orderly chain q)
  (hoffers : Offers chain r) (h : q.reservation r = some (start, hashes))

include hq hoffers h

theorem Orderly.startBlockHeight_ne : ∀ s ∈ q.spans, s.startBlockHeight ≠ start := by
  rintro s hs rfl
  obtain ⟨-, -, hash, rest, rfl, hnew⟩ := reservation_eq_some h
  have hlist := reservation_hashes hoffers h
  have hfirst : hash = chain s.startBlockHeight := by
    exact (cons.inj hlist).1
  have hcovers : s.Covers s.startBlockHeight := ⟨le_rfl, by have := (hq.follows s hs).1; omega⟩
  have hlisted : hash ∈ s.hashes := (hq.follows.mem_hashes_iff hs).2 ⟨_, hcovers, hfirst.symm⟩
  rw [(hq.exact.requested hash).2 ⟨s, hs, hlisted⟩] at hnew
  exact Bool.noConfusion hnew

theorem Orderly.mem_reserveSpan {t : Span} :
    t ∈ (q.reserveSpan r).2.spans ↔
      t ∈ q.spans ∨ t = ⟨start, hashes, [], r.connectionId, hashes.length⟩ := by
  have hfree := hq.startBlockHeight_ne hoffers h
  obtain ⟨-, -, hash, rest, hne, -⟩ := reservation_eq_some h
  simp only [reserveSpan, h, addBlocksScheduled, hne, length_cons, Nat.add_one_ne_zero,
    if_false]
  generalize hnew : (⟨start, [], [], r.connectionId, rest.length + 1⟩ : Span) = new
  have hmem : ∀ u, u ∈ (q.insert new).spans ↔ u ∈ q.spans ∨ u = new := by
    intro u
    rw [mem_insert, ← hnew]
    exact or_congr_right (and_iff_left hfree)
  have hset := setSpanHashes_replaced (q := q.insert new) (hash :: rest) ((hmem new).2 (.inr rfl))
    (by rw [← hnew]) (by rw [← hnew])
  rw [hset.mem, hmem, ← hnew]
  refine or_congr_left ⟨?_, fun ht => ⟨.inl ht, ?_⟩⟩
  · rintro ⟨ht | ht, hne⟩
    · exact ht
    · exact absurd ht hne
  · rintro rfl
    exact hfree _ ht rfl

/-- A reservation overlaps exactly when it takes a block that is requested. -/
theorem Orderly.reserveSpan_disjoint_iff (hchain : chain.Injective) :
    (q.reserveSpan r).2.RangesDisjoint ↔ ∀ hash ∈ hashes, q.requested hash = false := by
  have hlist := reservation_hashes hoffers h
  have hfree := hq.startBlockHeight_ne hoffers h
  generalize hnew : (⟨start, hashes, [], r.connectionId, hashes.length⟩ : Span) = new
  have hmem : ∀ t, t ∈ (q.reserveSpan r).2.spans ↔ t ∈ q.spans ∨ t = new :=
    fun t => hnew ▸ hq.mem_reserveSpan hoffers h
  have hcovers : ∀ hash, hash ∈ hashes ↔ ∃ k, new.Covers k ∧ chain k = hash := by
    intro hash
    rw [← hnew, hlist, mem_map]
    simp only [mem_range'_1, Span.Covers, length_map, length_range']
  -- a hash that was asked for is listed by a span, which covers its height too
  have hold : ∀ k, q.requested (chain k) = true ↔ ∃ s ∈ q.spans, s.Covers k := by
    intro k
    rw [hq.exact.requested]
    refine exists_congr fun s => and_congr_right fun hs => ?_
    rw [hq.follows.mem_hashes_iff hs]
    exact ⟨fun ⟨k', hk', heq⟩ => hchain heq ▸ hk', fun hk => ⟨k, hk, rfl⟩⟩
  have hapart : ∀ s ∈ q.spans, s ≠ new := by
    rintro s hs rfl
    exact hfree s hs (by rw [← hnew])
  constructor
  · intro hd hash hin
    obtain ⟨k, hk, rfl⟩ := (hcovers hash).1 hin
    refine Bool.eq_false_iff.2 fun hreq => ?_
    obtain ⟨s, hs, hsk⟩ := (hold k).1 hreq
    exact hapart s hs (hd s ((hmem s).2 (.inl hs)) new ((hmem new).2 (.inr rfl)) k hsk hk)
  · intro hfresh
    have hno : ∀ s ∈ q.spans, ∀ k, s.Covers k → ¬new.Covers k := by
      intro s hs k hsk hk
      have hreq := (hold k).2 ⟨s, hs, hsk⟩
      rw [hfresh _ ((hcovers _).2 ⟨k, hk, rfl⟩)] at hreq
      exact Bool.noConfusion hreq
    intro s hs t ht k hsk htk
    rcases (hmem s).1 hs with hs | rfl <;> rcases (hmem t).1 ht with ht | rfl
    · exact hq.disjoint s hs t ht k hsk htk
    · exact absurd htk (hno s hs k hsk)
    · exact absurd hsk (hno t ht k htk)
    · rfl

end Reserve

/-- The operations considered, with blocks of the chain. -/
def Offered (chain : ℕ → Hash) : Op → Prop
  | .reserveSpan r => Offers chain r
  | .removeSpan _ | .flushSpans _ _ => True
  | _ => False

/-- The reservation takes no block that is requested. -/
def Fresh (q : BlockQueue) : Op → Prop
  | .reserveSpan r => ∀ start hashes, q.reservation r = some (start, hashes) →
      ∀ hash ∈ hashes, q.requested hash = false
  | _ => True

theorem Orderly.step_disjoint_iff (hchain : chain.Injective) (hq : Orderly chain q) {op : Op}
    (hop : Offered chain op) : (q.step op).RangesDisjoint ↔ q.Fresh op := by
  cases op with
  | reserveSpan r =>
    rcases hres : q.reservation r with _ | ⟨start, hashes⟩
    · have hsame : (q.reserveSpan r).2 = q := by simp only [reserveSpan, hres]
      refine iff_of_true ?_ fun start hashes h => by simp [hres] at h
      rw [step, hsame]
      exact hq.disjoint
    · refine (hq.reserveSpan_disjoint_iff hop hres hchain).trans ⟨fun h start' hashes' h' => ?_, ?_⟩
      · obtain ⟨-, rfl⟩ := Prod.mk.inj (Option.some.inj (hres.symm.trans h'))
        exact h
      · exact fun h => h start hashes hres
  | removeSpan start => exact iff_of_true (hq.eraseBlocks hchain _).disjoint trivial
  | flushSpans connectionId all => exact iff_of_true (hq.eraseBlocks hchain _).disjoint trivial
  | addBlocks | addBlocksScheduled | setSpanHashes | removeSpans | flushStaleSpans =>
    exact absurd hop id

/-- A fresh operation keeps the queue orderly. -/
theorem Orderly.step (hchain : chain.Injective) (hq : Orderly chain q) {op : Op}
    (hop : Offered chain op) (hfresh : q.Fresh op) : Orderly chain (q.step op) := by
  have hdisjoint := (hq.step_disjoint_iff hchain hop).2 hfresh
  cases op with
  | reserveSpan r =>
    rcases hres : q.reservation r with _ | ⟨start, hashes⟩
    · have hsame : (q.reserveSpan r).2 = q := by simp only [reserveSpan, hres]
      rw [BlockQueue.step, hsame]
      exact hq
    · refine ⟨(step_exact_iff hq.exact _).2 fun start' hashes' h' => ?_, fun s hs => ?_, hdisjoint⟩
      · exact fun s hs hstart => absurd hstart (hq.startBlockHeight_ne hop h' s hs)
      · rcases (hq.mem_reserveSpan hop hres).1 hs with hs | rfl
        · exact hq.follows s hs
        · obtain ⟨-, -, hash, rest, rfl, -⟩ := reservation_eq_some hres
          exact ⟨Nat.succ_pos _, reservation_hashes hop hres⟩
  | removeSpan start => exact hq.eraseBlocks hchain _
  | flushSpans connectionId all => exact hq.eraseBlocks hchain _
  | addBlocks | addBlocksScheduled | setSpanHashes | removeSpans | flushStaleSpans =>
    exact absurd hop id

def FreshRun : BlockQueue → List Op → Prop :=
  Runs.SafeRun (fun q op => some (BlockQueue.step q op)) Fresh

/-- Reservations stay disjoint exactly when each is fresh. -/
theorem run_disjoint_iff (hchain : chain.Injective) (ops : List Op) {q : BlockQueue}
    (hq : Orderly chain q) (hops : ∀ op ∈ ops, Offered chain op) :
    (∀ ops', ops' <+: ops → (q.run ops').RangesDisjoint) ↔ q.FreshRun ops :=
  Runs.forall_prefix_foldl_good_iff Fresh BlockQueue.step
    (fun q (hq : Orderly chain q) => hq.disjoint)
    (fun _ _ hq hop => hq.step_disjoint_iff hchain hop)
    (fun _ _ hq hop hdisjoint =>
      hq.step hchain hop ((hq.step_disjoint_iff hchain hop).1 hdisjoint))
    ops q hq hops

theorem orderly_empty : Orderly chain empty :=
  ⟨exact_empty, forall_mem_nil _, forall_mem_nil _⟩

/-- Peers that offer one chain's hashes get disjoint spans in every state if and only if no
reservation of the run takes a hash that was asked for. -/
theorem run_empty_disjoint_iff (hchain : chain.Injective) (ops : List Op)
    (hops : ∀ op ∈ ops, Offered chain op) :
    (∀ ops', ops' <+: ops → (empty.run ops').RangesDisjoint) ↔ empty.FreshRun ops :=
  run_disjoint_iff hchain ops orderly_empty hops

end Chain

theorem offers_offer {start n : ℕ} (hstart : 0 < start) (connectionId : ConnectionId)
    (maxBlocks : ℕ) : Offers id (offer connectionId start n maxBlocks) := by
  intro i x hx
  simp only [offer, getElem?_map, Option.map_eq_some_iff] at hx
  obtain ⟨k, hk, rfl⟩ := hx
  obtain ⟨hi, rfl⟩ := List.getElem?_eq_some_iff.1 hk
  simp [offer, SpanRequest.startHeight]
  omega

/-- Two peers take turns, and the second gets what the first has left. -/
theorem run_empty_disjoint_iff_inTurn :
    (empty.run [.reserveSpan (offer 1 8 6 2), .reserveSpan (offer 2 8 8 3)]).spans.length = 2 ∧
      (empty.run [.reserveSpan (offer 1 8 6 2), .reserveSpan (offer 2 8 8 3)]).RangesDisjoint := by
  refine ⟨by decide, (run_empty_disjoint_iff Function.injective_id _ ?_).2 ?_ _
    (prefix_refl _)⟩
  · simp only [forall_mem_cons]
    exact ⟨offers_offer (by decide) _ _, offers_offer (by decide) _ _, forall_mem_nil _⟩
  · refine ⟨fun start hashes h => ?_, ?_⟩
    · obtain ⟨rfl, rfl⟩ : 8 = start ∧ [8, 9] = hashes := by
        simpa using (show some (8, [8, 9]) = some (start, hashes) from h ▸ by decide)
      decide
    · rintro _ ⟨⟩
      refine ⟨fun start hashes h => ?_, fun _ _ => trivial⟩
      obtain ⟨rfl, rfl⟩ : 10 = start ∧ [10, 11, 12] = hashes := by
        simpa using (show some (10, [10, 11, 12]) = some (start, hashes) from h ▸ by decide)
      decide

/-- The first of three peers goes, and the third is given its blocks and some of the second's. -/
theorem run_overlap :
    let ops := [.reserveSpan (offer 1 8 6 2), .reserveSpan (offer 2 8 8 3), .flushSpans 1 true,
      .reserveSpan (offer 3 8 8 5)]
    (∀ op ∈ ops, Offered id op) ∧ ¬(empty.run ops).RangesDisjoint := by
  refine ⟨?_, fun hd => ?_⟩
  · simp only [forall_mem_cons]
    exact ⟨offers_offer (by decide) _ _, offers_offer (by decide) _ _, trivial,
      offers_offer (by decide) _ _, forall_mem_nil _⟩
  · have heq := hd ⟨8, [8, 9, 10, 11, 12], [], 3, 5⟩ (by decide) ⟨10, [10, 11, 12], [], 2, 3⟩
      (by decide) 10 ⟨by decide, by decide⟩ ⟨by decide, by decide⟩
    exact absurd heq (by decide)

end BlockQueue

end Nerva
