import Nerva.Lib.Numbered
import Nerva.Lib.Runs
import Nerva.PeerSync
import Nerva.Proofs.Reservations

/-!
# Needed objects and their heights

The needed objects are numbered from their end, by the height of the last one. Taking objects off
the front keeps the numbers. The request for a span that another peer was asked for erases objects
wherever they stand, and a chain entry of which no id is used moves the last height.
-/

namespace Nerva

open List

def Requested.takesScheduled : Requested → Bool
  | .objects _ _ scheduled => scheduled
  | _ => false

namespace PeerContext

variable {env : PeerEnv} {q : BlockQueue} {c c' : PeerContext} {x : Requested × PeerContext}

theorem firstBlockHeight_toNat (hpos : 0 < c.neededObjects.length)
    (h : c.neededObjects.length ≤ c.lastResponseHeight.toNat + 1) :
    c.firstBlockHeight.toNat + c.neededObjects.length = c.lastResponseHeight.toNat + 1 := by
  have hlast := c.lastResponseHeight.toNat_lt
  simp only [firstBlockHeight, UInt64.toNat_add, UInt64.toNat_sub, UInt64.toNat_one,
    UInt64.toNat_ofNat']
  omega

/-- Only ids at the front of the needed list are gone. -/
def Shortens (c c' : PeerContext) : Prop :=
  c'.lastResponseHeight = c.lastResponseHeight ∧ c'.neededObjects <:+ c.neededObjects

theorem Shortens.refl (c : PeerContext) : c.Shortens c := ⟨rfl, suffix_refl _⟩

theorem Shortens.trans {c'' : PeerContext} (h : c.Shortens c') (h' : c'.Shortens c'') :
    c.Shortens c'' :=
  ⟨h'.1.trans h.1, h'.2.trans h.2⟩

theorem shortens_skipUnneededHashes (c : PeerContext) (env : PeerEnv) (q : BlockQueue)
    (checkBlockQueue : Bool) : c.Shortens (c.skipUnneededHashes env q checkBlockQueue).2 :=
  ⟨rfl, drop_suffix _ _⟩

/-- The outcomes of a request: the connection is dropped, the list is given up or shortened, or the
next span's objects are erased from it. -/
inductive Keeps (c : PeerContext) : Requested × PeerContext → Prop
  | refused (c' : PeerContext) : Keeps c (.refused, c')
  | gaveUp {r : Requested} {c' : PeerContext} : r.takesScheduled = false → c'.neededObjects = [] →
      Keeps c (r, c')
  | shortens {r : Requested} {c' : PeerContext} : r.takesScheduled = false → c.Shortens c' →
      Keeps c (r, c')
  | scheduled (blocks : List Hash) (prune : Bool) (c' : PeerContext) :
      Keeps c (.objects blocks prune true, c')

theorem Keeps.trans (hs : c.Shortens c') (h : c'.Keeps x) : c.Keeps x := by
  cases h with
  | refused => exact .refused _
  | gaveUp hr hnil => exact .gaveUp hr hnil
  | shortens hr hs' => exact .shortens hr (hs.trans hs')
  | scheduled => exact .scheduled _ _ _

theorem sendRequest_keeps (first n : ℕ) (blocks : List Hash) (hs : c.Shortens c') :
    c.Keeps (sendRequest env c' first n blocks false) := by
  unfold sendRequest
  split_ifs
  · exact .refused _
  · exact .shortens rfl hs

theorem requestReserved_keeps (first n : ℕ) : c.Keeps (requestReserved env c first n) := by
  unfold requestReserved
  simp only []
  split_ifs
  · exact .refused _
  · exact .refused _
  · exact sendRequest_keeps _ _ _ ⟨rfl, (drop_suffix _ _).trans (drop_suffix _ _)⟩

theorem eraseHashes_sublist : ∀ (hashes : List Hash) (l : List (Hash × UInt64)),
    (eraseHashes hashes l).Sublist l
  | [], l => List.Sublist.refl l
  | _ :: hashes, _ => (eraseHashes_sublist hashes _).trans eraseP_sublist

/-- Erasing the hashes of a span, in terms of the ids. -/
theorem map_eraseHashes : ∀ (hashes : List Hash) (l : List (Hash × UInt64)),
    (eraseHashes hashes l).map (·.1) = (l.map (·.1)).diff hashes
  | [], _ => rfl
  | hash :: hashes, l => by
    rw [eraseHashes, map_eraseHashes hashes, diff_cons, erase_eq_eraseP, eraseP_map]
    refine congrArg (fun p => List.diff (map Prod.fst (l.eraseP p)) hashes) (funext fun o => ?_)
    exact decide_eq_decide.mpr eq_comm

theorem requestScheduled_keeps (s : Span) : c.Keeps (requestScheduled env c s) := by
  unfold requestScheduled sendRequest
  split_ifs
  · exact .refused _
  · exact .scheduled _ _ _

theorem requestChain_keeps : c.Keeps (requestChain env c') := by
  unfold requestChain
  simp only []
  split_ifs
  · cases env.shortChainHistory with
    | nil => exact .refused _
    | cons id ids => exact .gaveUp rfl rfl
  · exact .gaveUp rfl rfl
  · exact .refused _

theorem requestNothing_keeps : c.Keeps (requestNothing env c) := by
  unfold requestNothing
  simp only []
  split_ifs
  · exact .refused _
  · exact .shortens rfl (.refl c)
  · exact requestChain_keeps

theorem requestSpan_keeps (forceNextSpan : Bool) :
    c.Keeps (requestSpan env q forceNextSpan c).1 := by
  unfold requestSpan
  simp only []
  split_ifs
  · exact requestReserved_keeps _ _
  · exact requestNothing_keeps
  · split
    · exact requestScheduled_keeps _
    · exact requestNothing_keeps

theorem requestObjects_keeps (forceNextSpan : Bool) :
    c.Keeps (requestObjects env q forceNextSpan c).1 := by
  have hskip := c.shortens_skipUnneededHashes env q false
  unfold requestObjects
  simp only []
  split
  · exact requestChain_keeps
  · split
    · exact sendRequest_keeps _ _ _ (.refl c)
    · split_ifs
      · exact requestChain_keeps
      · exact .refused _
      · exact (requestSpan_keeps forceNextSpan).trans hskip

/-- Unless it takes the scheduled span of another peer, a request only shortens the needed list. -/
theorem requestMissingObjects_keeps (c : PeerContext) (env : PeerEnv) (q : BlockQueue)
    (forceNextSpan : Bool) : c.Keeps (requestMissingObjects env q forceNextSpan c).1 := by
  have hskip := c.shortens_skipUnneededHashes env (q.flushStaleSpans env.liveConnections) true
  unfold requestMissingObjects
  simp only []
  split_ifs
  · exact requestObjects_keeps true
  · exact .refused _
  · split
    · exact .refused _
    · exact .shortens rfl hskip
    · exact (requestObjects_keeps _).trans hskip

/-- The list as a request finds it, without the objects at its front that the chain or the queue
has. -/
def leftNeeded (env : PeerEnv) (q : BlockQueue) (ctx : PeerContext) : PeerContext :=
  (ctx.skipUnneededHashes env (q.flushStaleSpans env.liveConnections) true).2

/-- The last resort of a request that was not told to get the next span: there are needed objects
and none can be reserved, and the next span `s`, still to come from another peer, is asked for
again. -/
structure LastResort (env : PeerEnv) (q : BlockQueue) (ctx : PeerContext) (s : Span) : Prop where
  needed : (ctx.leftNeeded env q).neededObjects ≠ []
  going : going env (q.flushStaleSpans env.liveConnections) (ctx.leftNeeded env q) = .go false
  inRange : ¬(ctx.leftNeeded env q).lastResponseHeight + 1 <
    (ctx.leftNeeded env q).neededObjects.length.toUInt64
  reserved : (q.flushStaleSpans env.liveConnections).reservation
    ((ctx.leftNeeded env q).spanRequest env) = none
  scheduled : scheduledSpan (q.flushStaleSpans env.liveConnections) = some s
  unpruned : ctx.hasUnpruned s.startBlockHeight = true
  full : lacksFullData env ctx s.startBlockHeight s.nblocks = false

theorem skipUnneededHashes_leftNeeded (hne : (c.leftNeeded env q).neededObjects ≠ []) :
    (c.leftNeeded env q).skipUnneededHashes env (q.flushStaleSpans env.liveConnections) false =
      (0, c.leftNeeded env q) := by
  have hleft : (c.leftNeeded env q).neededObjects = c.neededObjects.dropWhile
      (isUnneeded env (q.flushStaleSpans env.liveConnections) true) := by
    change c.neededObjects.drop _ = _
    conv_lhs => arg 2; rw [← takeWhile_append_dropWhile
      (p := isUnneeded env (q.flushStaleSpans env.liveConnections) true) (l := c.neededObjects)]
    rw [drop_left]
  have hhead := head_dropWhile_not (isUnneeded env (q.flushStaleSpans env.liveConnections) true)
    (hleft ▸ hne)
  have hskip : ((c.leftNeeded env q).neededObjects.takeWhile
      (isUnneeded env (q.flushStaleSpans env.liveConnections) false)).length = 0 := by
    cases hl : (c.leftNeeded env q).neededObjects with
    | nil => exact absurd hl hne
    | cons o l =>
      simp only [← hleft, hl, head_cons, isUnneeded, Bool.or_eq_false_iff] at hhead
      rw [takeWhile_cons_of_neg, length_nil]
      simp [isUnneeded, hhead.1]
  have hkept : ¬0 = (c.leftNeeded env q).neededObjects.length := fun h =>
    hne (length_eq_zero_iff.mp h.symm)
  unfold skipUnneededHashes
  simp only [hskip, if_neg hkept, drop_zero]

/-- As a last resort the scheduled span is requested again, and its hashes are erased from the
needed list. -/
theorem requestMissingObjects_of_lastResort {s : Span} (h : LastResort env q c s) :
    ∃ prune ctx, (requestMissingObjects env q false c).1 = (.objects s.hashes prune true, ctx) ∧
      ctx.lastResponseHeight = c.lastResponseHeight ∧
      ctx.neededObjects = eraseHashes s.hashes (c.leftNeeded env q).neededObjects := by
  have hempty : (c.leftNeeded env q).neededObjects.isEmpty = false := by
    rw [isEmpty_eq_false_iff]
    exact h.needed
  have hsomething : ∀ skipped, nothingToRequest skipped (c.leftNeeded env q) = false := by
    intro skipped
    simp [nothingToRequest, hempty]
  have hreserve : (q.flushStaleSpans env.liveConnections).reserveSpan
      ((c.leftNeeded env q).spanRequest env) = ((0, 0), q.flushStaleSpans env.liveConnections) := by
    rw [BlockQueue.reserveSpan, h.reserved]
  have hspan : requestSpan env (q.flushStaleSpans env.liveConnections) false (c.leftNeeded env q) =
      (requestScheduled env (c.leftNeeded env q) s, q.flushStaleSpans env.liveConnections) := by
    have hunpruned : (c.leftNeeded env q).hasUnpruned s.startBlockHeight = true := h.unpruned
    simp [requestSpan, hreserve, h.scheduled, Option.filter_some, hunpruned]
  have hobjects : requestObjects env (q.flushStaleSpans env.liveConnections) false
      (c.leftNeeded env q) =
      (requestScheduled env (c.leftNeeded env q) s, q.flushStaleSpans env.liveConnections) := by
    have hnone : ((scheduledSpan (q.flushStaleSpans env.liveConnections)).filter fun _ => false) =
        none := by
      rw [h.scheduled]
      rfl
    simp only [requestObjects, hempty, Bool.false_and, Bool.false_eq_true, if_false, hnone,
      if_neg h.inRange, skipUnneededHashes_leftNeeded h.needed, hsomething, hspan]
  have hrequest : (requestMissingObjects env q false c).1 =
      requestScheduled env (c.leftNeeded env q) s := by
    unfold requestMissingObjects
    rw [leftNeeded] at hsomething hobjects
    have hgoing := h.going
    rw [leftNeeded] at hgoing
    simp only [Bool.false_eq_true, if_false, hsomething, hgoing, hobjects]
    rfl
  rw [hrequest, requestScheduled, sendRequest, if_neg]
  · exact ⟨_, _, rfl, rfl, rfl⟩
  · exact Bool.eq_false_iff.mp h.full

section Objects

variable {blocks : List Hash} {prune scheduled : Bool}

theorem requestChain_ne_objects : (requestChain env c).1 ≠ .objects blocks prune scheduled := by
  intro h
  unfold requestChain at h
  simp only [] at h
  split_ifs at h
  cases hids : env.shortChainHistory <;> rw [hids] at h <;> cases h

theorem requestNothing_ne_objects :
    (requestNothing env c).1 ≠ .objects blocks prune scheduled := by
  intro h
  unfold requestNothing at h
  simp only [] at h
  split_ifs at h
  exact requestChain_ne_objects h

end Objects

theorem requestSpan_takesScheduled {forceNextSpan : Bool}
    (h : (requestSpan env q forceNextSpan c).1.1.takesScheduled = true) :
    forceNextSpan = false ∧ q.reservation (c.spanRequest env) = none ∧
      ∃ s, scheduledSpan q = some s ∧ c.hasUnpruned s.startBlockHeight = true ∧
        lacksFullData env c s.startBlockHeight s.nblocks = false := by
  have hnothing : (requestNothing env c).1.takesScheduled = false := by
    cases hr : (requestNothing env c).1 with
    | objects => exact absurd hr requestNothing_ne_objects
    | _ => rfl
  have hreserved : ∀ first n, (requestReserved env c first n).1.takesScheduled = false := by
    intro first n
    unfold requestReserved sendRequest
    simp only []
    split_ifs <;> rfl
  unfold requestSpan BlockQueue.reserveSpan at h
  cases hres : q.reservation (c.spanRequest env) with
  | some r =>
    obtain ⟨first, hashes⟩ := r
    have hpos : hashes.length ≠ 0 := by
      obtain ⟨-, -, hash, rest, rfl, -⟩ := BlockQueue.reservation_eq_some hres
      exact Nat.succ_ne_zero _
    simp only [hres, ne_eq, hpos, not_false_eq_true, if_true, hreserved] at h
    cases h
  | none =>
    simp only [hres, ne_eq, not_true_eq_false, if_false] at h
    split_ifs at h with hforce
    · rw [hnothing] at h
      cases h
    · split at h
      · rename_i s hs
        obtain ⟨hs, hunpruned⟩ := Option.filter_eq_some_iff.mp hs
        refine ⟨Bool.eq_false_iff.mpr hforce, rfl, s, hs, hunpruned, ?_⟩
        unfold requestScheduled sendRequest at h
        split_ifs at h with hlacks
        · cases h
        · exact Bool.eq_false_iff.mpr hlacks
      · rw [hnothing] at h
        cases h

theorem requestObjects_takesScheduled {forceNextSpan : Bool}
    (h : (requestObjects env q forceNextSpan c).1.1.takesScheduled = true) :
    forceNextSpan = false ∧ c.neededObjects ≠ [] ∧
      ¬c.lastResponseHeight + 1 < c.neededObjects.length.toUInt64 ∧
      (requestSpan env q false (c.skipUnneededHashes env q false).2).1.1.takesScheduled = true := by
  have hchain : ∀ c' : PeerContext, (requestChain env c').1.takesScheduled = false := by
    intro c'
    cases hr : (requestChain env c').1 with
    | objects => exact absurd hr requestChain_ne_objects
    | _ => rfl
  unfold requestObjects at h
  split at h
  · rw [hchain] at h
    cases h
  · rename_i hempty
    split at h
    · unfold sendRequest at h
      split_ifs at h <;> cases h
    · simp only [] at h
      split_ifs at h with hrange hnothing
      · rw [hchain] at h
        cases h
      · cases h
      · obtain ⟨rfl, -⟩ := requestSpan_takesScheduled h
        refine ⟨rfl, fun hnil => hempty ?_, hrange, h⟩
        simp [hnil]

/-- Only the last resort erases objects from the middle of the list. -/
theorem lastResort_of_takesScheduled {forceNextSpan : Bool}
    (h : (requestMissingObjects env q forceNextSpan c).1.1.takesScheduled = true) :
    forceNextSpan = false ∧ ∃ s, LastResort env q c s := by
  unfold requestMissingObjects at h
  simp only [] at h
  split_ifs at h with hforce hnothing
  · cases (requestObjects_takesScheduled h).1
  · cases h
  · split at h
    · cases h
    · cases h
    · rename_i force hgoing
      change (requestObjects env (q.flushStaleSpans env.liveConnections) force
        (c.leftNeeded env q)).1.1.takesScheduled = true at h
      obtain ⟨rfl, hneeded, hrange, hspan⟩ := requestObjects_takesScheduled h
      rw [skipUnneededHashes_leftNeeded hneeded] at hspan
      obtain ⟨-, hreserved, s, hscheduled, hunpruned, hfull⟩ := requestSpan_takesScheduled hspan
      exact ⟨Bool.eq_false_iff.mpr hforce, s,
        ⟨hneeded, hgoing, hrange, hreserved, hscheduled, hunpruned, hfull⟩⟩

end PeerContext

namespace Peer

variable {p p' : Peer}

/-- The id that the last chain entry gave a height. -/
def announcedAt (p : Peer) : ℕ → Option Hash := Numbered.window p.announcedFrom p.announced

/-- Every needed object is what the peer announced for the height that `reserve_span` is told for
it, and that height follows from the last one and the length of the list. -/
def Aligned (p : Peer) : Prop :=
  ∀ i o, p.ctx.neededObjects[i]? = some o → ∃ height,
    height + p.ctx.neededObjects.length = p.ctx.lastResponseHeight.toNat + 1 + i ∧
    (∀ env, height = (p.ctx.spanRequest env).firstBlockHeight + i) ∧
    p.announcedAt height = some o.1

/-- The needed ids. -/
def ids (p : Peer) : List Hash := p.ctx.neededObjects.map (·.1)

/-- The needed ids are those announced up to the last response height. -/
theorem aligned_iff :
    p.Aligned ↔ Numbered.To p.announcedAt p.ctx.lastResponseHeight.toNat p.ids := by
  constructor
  · intro h i id hi
    obtain ⟨o, ho, rfl⟩ : ∃ o, p.ctx.neededObjects[i]? = some o ∧ o.1 = id := by
      simpa [ids] using hi
    obtain ⟨height, hh, -, hat⟩ := h i o ho
    exact ⟨height, by simpa [ids] using hh, hat⟩
  · intro h i o ho
    obtain ⟨height, hh, hat⟩ := h i o.1 (by simp [ids, ho])
    have hlen := h.length_le
    simp only [ids, length_map] at hh hlen
    have hi : i < p.ctx.neededObjects.length := (List.getElem?_eq_some_iff.1 ho).1
    have hfirst := PeerContext.firstBlockHeight_toNat (by omega) hlen
    refine ⟨height, hh, fun env => ?_, hat⟩
    change height = p.ctx.firstBlockHeight.toNat + i
    omega

/-- Shortening keeps the needed list aligned. -/
theorem Aligned.shortens {ctx : PeerContext} (h : p.Aligned) (hs : p.ctx.Shortens ctx) :
    Aligned { p with ctx } := by
  rw [aligned_iff] at h ⊢
  simp only [hs.1]
  exact h.suffix (hs.2.map _)

theorem aligned_of_nil (h : p.ctx.neededObjects = []) : p.Aligned := by
  intro i o ho
  simp [h] at ho

end Peer

namespace ChainEntry

variable {arg : ChainEntry}

theorem map_objects (arg : ChainEntry) : arg.objects.map (·.1) = arg.blockIds := by
  simp [objects, Function.comp_def]

theorem wellFormed_bounds (h : arg.wellFormed) :
    arg.blockIds ≠ [] ∧
      arg.startHeight.toNat + arg.blockIds.length < cryptonoteMaxBlockNumber := by
  simp only [wellFormed, Bool.and_eq_true, decide_eq_true_eq] at h
  obtain ⟨⟨⟨⟨⟨hne, hlen⟩, hstart⟩, -⟩, htotal⟩, -⟩ := h
  refine ⟨hne, ?_⟩
  rw [UInt64.le_iff_toNat_le, UInt64.toNat_sub, UInt64.toNat_ofNat'] at hstart
  omega

end ChainEntry

namespace PeerContext

variable {arg : ChainEntry} {nUseBlocks : UInt64} {c c' : PeerContext}

theorem takeChainEntry_eq_some (h : c.takeChainEntry arg nUseBlocks = some c') :
    arg.wellFormed ∧ c'.lastResponseHeight = arg.startHeight + nUseBlocks - 1 ∧
      c'.neededObjects.map (·.1) =
        if nUseBlocks = 0 then arg.blockIds else arg.blockIds.take nUseBlocks.toNat := by
  unfold takeChainEntry at h
  simp only [] at h
  split at h
  · cases h
  · rename_i hrefused
    simp only [Bool.or_eq_true, not_or, Bool.not_eq_true', Bool.not_eq_false] at hrefused
    cases h
    refine ⟨hrefused.1.1, ?_, ?_⟩
    · simp only []
      grind
    · simp only []
      split
      · exact arg.map_objects
      · rw [map_take, arg.map_objects]

end PeerContext

namespace Peer

variable {p p' : Peer}

/-- A chain entry leaves the list aligned exactly when some of its blocks, and no more than it has,
are to be used. -/
theorem takeChainEntry_aligned_iff {arg : ChainEntry} {nUseBlocks : UInt64} {c c' : PeerContext}
    (h : c.takeChainEntry arg nUseBlocks = some c') :
    Aligned ⟨c', arg.startHeight.toNat, arg.blockIds⟩ ↔
      0 < nUseBlocks ∧ nUseBlocks.toNat ≤ arg.blockIds.length := by
  obtain ⟨hwf, hlast, hids⟩ := PeerContext.takeChainEntry_eq_some h
  obtain ⟨hne, hbound⟩ := ChainEntry.wellFormed_bounds hwf
  have hn := nUseBlocks.toNat_lt
  have hlast' : c'.lastResponseHeight.toNat =
      (arg.startHeight.toNat + nUseBlocks.toNat + (2 ^ 64 - 1)) % 2 ^ 64 := by
    rw [hlast, UInt64.toNat_sub, UInt64.toNat_add, UInt64.toNat_one]
    omega
  have hpos : 0 < nUseBlocks ↔ 0 < nUseBlocks.toNat := UInt64.lt_iff_toNat_lt
  unfold cryptonoteMaxBlockNumber at hbound
  rw [aligned_iff, hpos]
  constructor
  · intro hal
    have hnil : ids ⟨c', arg.startHeight.toNat, arg.blockIds⟩ ≠ [] := by
      rw [ids, hids]
      split_ifs with h0
      · exact hne
      · rw [Ne, take_eq_nil_iff, not_or]
        exact ⟨fun h => h0 (UInt64.toNat_inj.1 h), hne⟩
    -- the last height lies within the announced ones
    have hsome := hal.last_isSome hnil
    simp only [announcedAt, Numbered.window] at hsome
    split_ifs at hsome with hlt
    · simp at hsome
    · rw [Option.isSome_iff_exists] at hsome
      obtain ⟨a, ha⟩ := hsome
      have := (List.getElem?_eq_some_iff.1 ha).1
      omega
  · rintro ⟨h0, hle⟩
    have hne0 : nUseBlocks ≠ 0 := by
      rintro rfl
      exact Nat.lt_irrefl _ h0
    have hids' : ids ⟨c', arg.startHeight.toNat, arg.blockIds⟩ =
        arg.blockIds.take nUseBlocks.toNat := by
      rw [ids, hids, if_neg hne0]
    rw [hids']
    refine Numbered.to_window ?_ ( take_prefix _ _)
    rw [length_take]
    simp only [hlast']
    omega

/-- The steps that keep the heights: an accepted chain entry has some of its ids used, and the
objects of the span that a request asks for as its last resort stand at the front of the list. -/
def Safe (p : Peer) : Op → Prop
  | .chainEntry arg nUseBlocks => (p.ctx.takeChainEntry arg nUseBlocks).isSome →
      0 < nUseBlocks ∧ nUseBlocks.toNat ≤ arg.blockIds.length
  | .skipUnneededHashes _ _ _ => True
  | .requestMissingObjects env q forceNextSpan => forceNextSpan = false →
      ∀ s, PeerContext.LastResort env q p.ctx s →
        Numbered.AtFront s.hashes ((p.ctx.leftNeeded env q).neededObjects.map (·.1))
  | .requested => True

/-- The last resort keeps the list aligned exactly when the needed ids of the span stand at its
front. -/
theorem lastResort_aligned_iff (hp : p.Aligned) {env : PeerEnv} {q : BlockQueue} {s : Span}
    {ctx : PeerContext} (hlast : ctx.lastResponseHeight = p.ctx.lastResponseHeight)
    (hneeded : ctx.neededObjects =
      PeerContext.eraseHashes s.hashes (p.ctx.leftNeeded env q).neededObjects) :
    Aligned { p with ctx } ↔
      Numbered.AtFront s.hashes ((p.ctx.leftNeeded env q).neededObjects.map (·.1)) := by
  have hleft : p.ctx.Shortens (p.ctx.leftNeeded env q) :=
    PeerContext.shortens_skipUnneededHashes _ _ _ _
  have herased : ids { p with ctx } =
      ((p.ctx.leftNeeded env q).neededObjects.map (·.1)).diff s.hashes := by
    rw [ids, hneeded, PeerContext.map_eraseHashes]
  have hlen : ctx.neededObjects.length ≤ (p.ctx.leftNeeded env q).neededObjects.length := by
    rw [hneeded]
    exact (PeerContext.eraseHashes_sublist _ _).length_le
  have haligned := hp.shortens hleft
  rw [aligned_iff] at haligned ⊢
  rw [← Numbered.diff_suffix_iff, ← herased]
  simp only [hlast]
  exact haligned.suffix_iff (by simpa [ids] using hlen)

theorem requestMissingObjects_safe_iff (hp : p.Aligned) (env : PeerEnv) (q : BlockQueue)
    (forceNextSpan : Bool) :
    (∀ p', p.step (.requestMissingObjects env q forceNextSpan) = some p' → p'.Aligned) ↔
      p.Safe (.requestMissingObjects env q forceNextSpan) := by
  simp only [step, Safe]
  by_cases htakes :
      (p.ctx.requestMissingObjects env q forceNextSpan).1.1.takesScheduled = true
  · obtain ⟨rfl, s, hresort⟩ := PeerContext.lastResort_of_takesScheduled htakes
    obtain ⟨prune, ctx, hrequest, hlast, hneeded⟩ :=
      PeerContext.requestMissingObjects_of_lastResort hresort
    have haligned := lastResort_aligned_iff hp hlast hneeded
    have hspan : ∀ s', PeerContext.LastResort env q p.ctx s' → s' = s := fun s' h =>
      Option.some.inj (h.scheduled.symm.trans hresort.scheduled)
    rw [hrequest]
    constructor
    · intro h _ s' hs'
      rw [hspan s' hs']
      exact haligned.mp (h _ rfl)
    · rintro h p' ⟨⟩
      exact haligned.mpr (h rfl s hresort)
  · -- without the last resort the list is given up or shortened
    refine iff_of_true (fun p' hp' => ?_) fun hforce s hresort => ?_
    · have hkeeps := p.ctx.requestMissingObjects_keeps env q forceNextSpan
      generalize (p.ctx.requestMissingObjects env q forceNextSpan).1 = x at hkeeps htakes hp'
      unfold afterRequest at hp'
      split at hp'
      · cases hp'
      · rename_i hrefused
        obtain rfl := Option.some.inj hp'
        cases hkeeps with
        | refused => exact absurd rfl hrefused
        | gaveUp hr hnil => exact aligned_of_nil hnil
        | shortens hr hs => exact hp.shortens hs
        | scheduled => exact absurd rfl htakes
    · subst hforce
      obtain ⟨prune, ctx, hrequest, -, -⟩ :=
        PeerContext.requestMissingObjects_of_lastResort hresort
      rw [hrequest] at htakes
      exact absurd rfl htakes

/-- A step keeps the list aligned exactly when it is safe. -/
theorem step_safe_iff (hp : p.Aligned) (op : Op) :
    (∀ p', p.step op = some p' → p'.Aligned) ↔ p.Safe op := by
  cases op with
  | chainEntry arg nUseBlocks =>
    simp only [step, Safe]
    cases h : p.ctx.takeChainEntry arg nUseBlocks with
    | none => simp
    | some ctx => simpa using takeChainEntry_aligned_iff h
  | skipUnneededHashes env q checkBlockQueue =>
    have hs := p.ctx.shortens_skipUnneededHashes env q checkBlockQueue
    simpa [step, Safe] using hp.shortens hs
  | requestMissingObjects env q forceNextSpan =>
    exact requestMissingObjects_safe_iff hp env q forceNextSpan
  | requested =>
    have hs : p.ctx.Shortens { p.ctx with numRequested := 0 } := ⟨rfl, suffix_refl _⟩
    simpa [step, Safe] using hp.shortens hs

def SafeRun : Peer → List Op → Prop := Runs.SafeRun step Safe

theorem run_eq_run : ∀ (ops : List Op) (p : Peer), p.run ops = Runs.run step p ops
  | [], _ => rfl
  | op :: ops, p => congrArg (p.step op).bind (funext fun p' => run_eq_run ops p')

/-- A run keeps the list aligned exactly when each of its steps is safe. -/
theorem run_safe_iff (ops : List Op) {p : Peer} (hp : p.Aligned) :
    (∀ ops', ops' <+: ops → ∀ p', p.run ops' = some p' → p'.Aligned) ↔ p.SafeRun ops := by
  have hrun := Runs.forall_prefix_good_iff step Safe (fun p (hp : p.Aligned) => hp)
    (fun _ op hp (_ : True) => step_safe_iff hp op) (fun _ _ _ _ _ _ hgood => hgood)
    ops p hp fun _ _ => trivial
  rw [SafeRun, ← hrun]
  simp only [run_eq_run]

/-- Over every run of a new connection, against any queues and chains, the needed objects stay
aligned with their heights if and only if every step is safe. -/
theorem run_connect_aligned_iff (connectionId : ConnectionId) (isIncome : Bool)
    (pruningSeed : UInt32) (ops : List Op) :
    (∀ ops', ops' <+: ops → ∀ p, (connect connectionId isIncome pruningSeed).run ops' = some p →
      p.Aligned) ↔ (connect connectionId isIncome pruningSeed).SafeRun ops :=
  run_safe_iff ops (aligned_of_nil rfl)

/-- `handle_response_chain_entry` is a run of three steps. -/
theorem handleResponseChainEntry_eq_run (p : Peer) (env : PeerEnv) (q : BlockQueue)
    (arg : ChainEntry) (nUseBlocks : UInt64) :
    (p.ctx.handleResponseChainEntry env q arg nUseBlocks).1.map (·.2) =
      (p.run [.chainEntry arg nUseBlocks, .requestMissingObjects env q false, .requested]).map
        (·.ctx) := by
  unfold PeerContext.handleResponseChainEntry
  cases h : p.ctx.takeChainEntry arg nUseBlocks with
  | none => simp [run, step, h]
  | some ctx =>
    simp only [run, step, h, Option.map_some, Option.bind_some]
    generalize ctx.requestMissingObjects env q false = x
    obtain ⟨⟨requested, ctx'⟩, q'⟩ := x
    by_cases hr : requested = .refused <;> simp [hr, afterRequest]

def forkedEnv : PeerEnv where
  haveBlock := fun _ => false
  currentBlockchainHeight := 4097
  blockchainPruningSeed := 0
  syncPrunedBlocks := false
  blockSyncSize := 20
  hasBlockWeights := fun _ _ => false
  shortChainHistory := [9]
  emptyBlockHash := 0
  liveConnections := [1, 2]
  queueSmall := true
  shouldDropConnection := fun _ => false
  shouldDownloadNextSpan := false
  nextNeededPruningStripe := 2
  syncLockFree := true
  wedged := false

/-- Two blocks of the peer's branch, the last of the first stripe and the first of the second. -/
def forkEntry : ChainEntry where
  startHeight := 4095
  totalHeight := 20000
  blockIds := [11, 12]

/-- The queue after a first peer of the second stripe was asked for its part. -/
def forkQueue : BlockQueue :=
  ((PeerContext.mk 1 false 385 20000 4096 nullHash [(11, 0), (12, 0)] ∅ 0).requestMissingObjects
    forkedEnv .empty false).2

/-- A second peer of that stripe is asked for the same span. The block before it stays in the list,
under the height of the block after it. -/
theorem run_forkEntry_not_aligned :
    ∃ p, (connect 2 false 385).run
      [.chainEntry forkEntry 2, .requestMissingObjects forkedEnv forkQueue false] = some p ∧
      p.ctx.neededObjects = [(11, 0)] ∧ p.announcedAt 4095 = some 11 ∧
      p.ctx.firstBlockHeight = 4096 ∧ ¬p.Aligned := by
  refine ⟨_, rfl, by decide, by decide, by decide, fun h => ?_⟩
  obtain ⟨height, hheight, -, hat⟩ := h 0 (11, 0) (by decide)
  obtain rfl : height = 4096 := Nat.succ.inj hheight
  exact absurd hat (by decide)

end Peer

end Nerva
