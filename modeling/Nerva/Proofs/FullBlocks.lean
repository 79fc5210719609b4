import Nerva.Proofs.NeededObjects
import Nerva.Proofs.Prune
import Nerva.Proofs.Reservations

/-!
# Full blocks from pruned peers

The span that a request asks for is reserved for the peer, or it is the next span of the queue,
which another peer was asked for. The next span is tested at its first and its last block only, or
at its first one, so that the peer need not have what lies between.
-/

namespace Nerva

open BlockQueue.SpanRequest

namespace PeerContext

/-- A seed with the number of stripes that the code uses. -/
def ValidSeed (seed : UInt32) : Prop :=
  seed = 0 ∨ getPruningLogStripes seed = cryptonotePruningLogStripes ∧
    getPruningStripe seed ≤ 2 ^ cryptonotePruningLogStripes

/-- The part of the range that not every peer keeps lies in one stripe, and it is the peer's. -/
def InPeerStripe (ctx : PeerContext) (first n : ℕ) : Prop :=
  n = 0 ∨ ctx.pruningSeed = 0 ∨
    ctx.remoteBlockchainHeight.toNat ≤ first + cryptonotePruningTipBlocks ∨
    first / cryptonotePruningStripeSize % 2 ^ cryptonotePruningLogStripes + 1 =
        getPruningStripe ctx.pruningSeed ∧
      (min (first + n) (ctx.remoteBlockchainHeight.toNat - cryptonotePruningTipBlocks) - 1) /
        cryptonotePruningStripeSize = first / cryptonotePruningStripeSize

/-- Where the blocks of a request come from: the next span of the queue, or a reservation for the
peer, made with what is left of its list. -/
inductive AsksFor (env : PeerEnv) (q : BlockQueue) (ctx : PeerContext) (first : ℕ)
    (blocks : List Hash) : (reserved : Bool) → Prop
  | queued (s : Span) : q.spans.head? = some s → s.startBlockHeight = first → s.hashes = blocks →
    AsksFor env q ctx first blocks false
  | reserved (ctx' : PeerContext) (hashes : List Hash) : ctx.Shortens ctx' →
    ctx'.pruningSeed = ctx.pruningSeed →
    ctx'.remoteBlockchainHeight = ctx.remoteBlockchainHeight →
    q.reservation (ctx'.spanRequest env) = some (first, hashes) → blocks.length = hashes.length →
    blocks <+: (ctx'.neededObjects.drop (first.toUInt64 - ctx'.firstBlockHeight).toNat).map (·.1) →
    AsksFor env q ctx first blocks true

section Range

variable {ctx : PeerContext} {first n : ℕ}

theorem getPruningStripe_eq_zero_iff (seed : UInt32) : getPruningStripe seed = 0 ↔ seed = 0 := by
  unfold getPruningStripe
  split_ifs with h
  · simp [h]
  · simp only [h, iff_false]
    omega

theorem hasUnprunedBlock_valid_iff {seed : UInt32} (hseed : ValidSeed seed) (k : ℕ) :
    hasUnprunedBlock k n seed = true ↔
      n ≤ k + 5500 ∨ getPruningStripe seed = 0 ∨ k / 4096 % 8 + 1 = getPruningStripe seed := by
  rw [hasUnprunedBlock_iff, InStripe]
  rcases hseed with rfl | ⟨hlog, -⟩
  · exact iff_of_true (.inr (.inl rfl)) (.inr (.inl rfl))
  · rw [hlog]
    rfl

/-- A peer has a range whole exactly when it is in its stripe or near the tip. -/
theorem hasUnpruned_range_iff (hseed : ValidSeed ctx.pruningSeed) :
    (∀ i < n, ctx.hasUnpruned (first + i) = true) ↔ ctx.InPeerStripe first n := by
  have htip : cryptonotePruningTipBlocks = 5500 := rfl
  have hsize : cryptonotePruningStripeSize = 4096 := rfl
  have hstripes : 2 ^ cryptonotePruningLogStripes = 8 := by decide
  simp only [hasUnpruned, hasUnprunedBlock_valid_iff hseed, getPruningStripe_eq_zero_iff,
    InPeerStripe, hsize, hstripes]
  by_cases hzero : ctx.pruningSeed = 0
  · simp [hzero]
  simp only [hzero, false_or]
  constructor
  · intro h
    by_contra hnot
    -- the block with which the next stripe begins
    have hfirst := h 0 (by omega)
    have hnext := h ((first / 4096 + 1) * 4096 - first) (by omega)
    omega
  · intro h i hi
    omega

end Range

section Requests

variable {env : PeerEnv} {q : BlockQueue} {ctx : PeerContext} {first n : ℕ} {blocks : List Hash}
  {prune scheduled : Bool} {b force : Bool}

theorem sendRequest_objects {hashes : List Hash}
    (h : (sendRequest env ctx first n hashes b).1 = .objects blocks prune scheduled) :
    hashes = blocks := by
  unfold sendRequest at h
  split_ifs at h
  exact (Requested.objects.inj h).1

theorem requestReserved_objects
    (h : (requestReserved env ctx first n).1 = .objects blocks prune scheduled) :
    blocks.length = n ∧
      blocks <+:
        (ctx.neededObjects.drop (first.toUInt64 - ctx.firstBlockHeight).toNat).map (·.1) := by
  unfold requestReserved at h
  simp only [] at h
  split_ifs at h with hskip hshort
  rw [← sendRequest_objects h]
  refine ⟨?_, (List.take_prefix _ _).map _⟩
  rw [List.length_map, List.length_take]
  omega

theorem head?_of_scheduledSpan {s : Span} (h : scheduledSpan q = some s) :
    q.spans.head? = some s := by
  obtain ⟨hnext, -⟩ := Option.filter_eq_some_iff.mp h
  unfold BlockQueue.getNextSpanIfScheduled at hnext
  cases hspans : q.spans with
  | nil =>
    rw [hspans] at hnext
    cases hnext
  | cons t rest =>
    rw [hspans] at hnext
    simp only [Option.ite_none_right_eq_some] at hnext
    rw [← hnext.2, List.head?_cons]

theorem requestSpan_objects
    (h : (requestSpan env q force ctx).1.1 = .objects blocks prune scheduled) :
    ∃ first reserved, AsksFor env q ctx first blocks reserved := by
  unfold requestSpan BlockQueue.reserveSpan at h
  cases hres : q.reservation (ctx.spanRequest env) with
  | none =>
    simp only [hres, ne_eq, not_true_eq_false, if_false] at h
    split_ifs at h
    · exact absurd h requestNothing_ne_objects
    · cases hs : (scheduledSpan q).filter fun s => ctx.hasUnpruned s.startBlockHeight with
      | none =>
        rw [hs] at h
        exact absurd h requestNothing_ne_objects
      | some s =>
        rw [hs] at h
        have hhead := head?_of_scheduledSpan (Option.filter_eq_some_iff.mp hs).1
        exact ⟨s.startBlockHeight, false, .queued s hhead rfl (sendRequest_objects h)⟩
  | some r =>
    obtain ⟨first, hashes⟩ := r
    have hpos : hashes.length ≠ 0 := by
      obtain ⟨-, -, hash, rest, rfl, -⟩ := BlockQueue.reservation_eq_some hres
      exact Nat.succ_ne_zero _
    simp only [hres, ne_eq, hpos] at h
    obtain ⟨hlen, hpre⟩ := requestReserved_objects h
    exact ⟨first, true, .reserved ctx hashes (Shortens.refl ctx) rfl rfl hres hlen hpre⟩

theorem AsksFor.skip {env' : PeerEnv} {q' : BlockQueue} {reserved : Bool}
    (h : AsksFor env q (ctx.skipUnneededHashes env' q' b).2 first blocks reserved) :
    AsksFor env q ctx first blocks reserved := by
  cases h with
  | queued s hhead hfirst hblocks => exact .queued s hhead hfirst hblocks
  | reserved ctx' hashes hs hseed htop hres hlen hpre =>
    exact .reserved ctx' hashes ((shortens_skipUnneededHashes ctx env' q' b).trans hs) hseed htop
      hres hlen hpre

theorem requestObjects_objects
    (h : (requestObjects env q force ctx).1.1 = .objects blocks prune scheduled) :
    ∃ first reserved, AsksFor env q ctx first blocks reserved := by
  unfold requestObjects at h
  cases hs : (scheduledSpan q).filter fun _ => force with
  | some s =>
    simp only [hs] at h
    split_ifs at h
    · exact absurd h requestChain_ne_objects
    · have hhead := head?_of_scheduledSpan (Option.filter_eq_some_iff.mp hs).1
      exact ⟨s.startBlockHeight, false, .queued s hhead rfl (sendRequest_objects h)⟩
  | none =>
    simp only [hs] at h
    split_ifs at h
    · exact absurd h requestChain_ne_objects
    · exact absurd h requestChain_ne_objects
    · obtain ⟨first, reserved, hasks⟩ := requestSpan_objects h
      exact ⟨first, reserved, hasks.skip⟩

/-- Which blocks a request asks for. -/
theorem requestMissingObjects_asksFor
    (h : (requestMissingObjects env q force ctx).1.1 = .objects blocks prune scheduled) :
    ∃ first reserved,
      AsksFor env (q.flushStaleSpans env.liveConnections) ctx first blocks reserved := by
  unfold requestMissingObjects at h
  simp only [] at h
  split_ifs at h
  · exact requestObjects_objects h
  · split at h
    · cases h
    · cases h
    · obtain ⟨first, reserved, hasks⟩ := requestObjects_objects h
      exact ⟨first, reserved, hasks.skip⟩

end Requests

section Reserved

variable {q : BlockQueue} {r : BlockQueue.SpanRequest} {first : ℕ} {hashes : List Hash}

theorem canTake_of_takeHashes {b : Bool} : ∀ (n height : ℕ) (l : List (Hash × UInt64)) (i : ℕ),
    i < (r.takeHashes b height n l).length → r.canTake b (height + i) = true
  | 0, _, _, _, hi => by simp [takeHashes] at hi
  | _ + 1, _, [], _, hi => by simp [takeHashes] at hi
  | n + 1, height, (hash, _) :: rest, i, hi => by
    unfold takeHashes at hi
    split_ifs at hi with htake
    · cases i with
      | zero => exact htake
      | succ i =>
        have hrest := canTake_of_takeHashes n (height + 1) rest i (by simpa using hi)
        rwa [Nat.add_right_comm] at hrest
    · simp at hi

theorem hasUnprunedBlock_of_reservation (h : q.reservation r = some (first, hashes))
    (hsync : r.syncPrunedBlocks = false) :
    ∀ i < hashes.length,
      hasUnprunedBlock (first + i) r.blockchainHeight r.pruningSeed = true := by
  intro i hi
  unfold BlockQueue.reservation at h
  simp only [] at h
  split_ifs at h
  split at h
  · cases h
  · simp only [Option.some.injEq] at h
    obtain ⟨rfl, rfl⟩ := h
    have htake := canTake_of_takeHashes _ _ _ i hi
    simpa [canTake, hsync] using htake

end Reserved

section Full

variable {env : PeerEnv} {q : BlockQueue} {ctx : PeerContext} {blocks : List Hash}

def FullSync (env : PeerEnv) : Prop :=
  env.syncPrunedBlocks = false ∨ env.blockchainPruningSeed = 0

/-- Blocks that are newly reserved are ones the peer has whole. -/
theorem AsksFor.hasUnpruned {first : ℕ} (hfull : FullSync env)
    (h : AsksFor env q ctx first blocks true) :
    ∀ i < blocks.length, ctx.hasUnpruned (first + i) = true := by
  cases h with
  | reserved ctx' hashes _ hseed htop hres hlen _ =>
    have hsync : (ctx'.spanRequest env).syncPrunedBlocks = false := by
      rcases hfull with h | h <;> simp [spanRequest, h]
    have hheld := hasUnprunedBlock_of_reservation hres hsync
    rw [hlen]
    simpa only [spanRequest, hseed, htop, PeerContext.hasUnpruned] using hheld

/-- A request for whole blocks names only blocks that the peer has just when it was reserved without
pruned synchronisation, or its range is in the peer's stripe. The tests that the code makes at the
first and the last block are no part of this: they leave open a range that begins in the peer's
stripe and ends in its tip, with the boundary of a stripe below the tip in between. -/
theorem requestMissingObjects_holds_iff (env : PeerEnv) (q : BlockQueue) (force : Bool)
    (ctx : PeerContext) (hseed : ValidSeed ctx.pruningSeed) (blocks : List Hash) (scheduled : Bool)
    (h : (requestMissingObjects env q force ctx).1.1 = .objects blocks false scheduled) :
    (∃ first reserved,
        AsksFor env (q.flushStaleSpans env.liveConnections) ctx first blocks reserved) ∧
      ∀ first reserved,
        AsksFor env (q.flushStaleSpans env.liveConnections) ctx first blocks reserved →
        ((∀ i < blocks.length, ctx.hasUnpruned (first + i) = true) ↔
          reserved = true ∧ FullSync env ∨ ctx.InPeerStripe first blocks.length) := by
  refine ⟨requestMissingObjects_asksFor h, ?_⟩
  intro first reserved hasks
  rw [hasUnpruned_range_iff hseed]
  constructor
  · exact Or.inr
  · rintro (⟨rfl, hfull⟩ | hin)
    · exact (hasUnpruned_range_iff hseed).mp (hasks.hasUnpruned hfull)
    · exact hin

def stripeEndQueue : BlockQueue :=
  (BlockQueue.empty.addBlocksScheduled 4090 21 1).setSpanHashes 4090 1 (List.range' 100 21)

/-- A peer pruned at the first stripe, whose tip begins at the block 4100. -/
def stripePeer : PeerContext where
  connectionId := 2
  isIncome := false
  pruningSeed := 384
  remoteBlockchainHeight := 9600

/-- A peer that is not pruned has the whole range. -/
theorem requestMissingObjects_holds_iff_unpruned :
    ∃ first reserved,
      AsksFor Peer.forkedEnv (stripeEndQueue.flushStaleSpans [1, 2])
        { stripePeer with pruningSeed := 0 }
        first (List.range' 100 21) reserved ∧
      ∀ i < 21,
        PeerContext.hasUnpruned { stripePeer with pruningSeed := 0 } (first + i) = true := by
  obtain ⟨⟨first, reserved, hasks⟩, hiff⟩ := requestMissingObjects_holds_iff Peer.forkedEnv
    stripeEndQueue true { stripePeer with pruningSeed := 0 } (.inl rfl) (List.range' 100 21) false
    (by decide)
  exact ⟨first, reserved, hasks, (hiff first reserved hasks).mpr (.inr (.inr (.inl rfl)))⟩

/-- The first block of the forced next span is of the peer's stripe and the last one is in the tip.
The whole block 4096 is asked for, which the peer has pruned. -/
theorem stripePeer_asked_for_pruned :
    (stripePeer.requestMissingObjects Peer.forkedEnv stripeEndQueue true).1.1 =
        .objects (List.range' 100 21) false false ∧
      (stripeEndQueue.flushStaleSpans [1, 2]).spans.map (fun s => (s.startBlockHeight, s.hashes)) =
        [(4090, List.range' 100 21)] ∧
      ValidSeed stripePeer.pruningSeed ∧ stripePeer.hasUnpruned (4090 + 6) = false := by
  refine ⟨by decide, by decide, .inr ?_, by decide⟩
  decide

end Full

end PeerContext

end Nerva
