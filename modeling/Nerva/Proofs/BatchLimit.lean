import Nerva.Proofs.BatchForks
import Nerva.Proofs.WeightLimit

/-!
# Batches and the weight limit

From version 12 on only the last block of a batch refreshes the weight limit. The limit is stale
exactly as long as the chain has not reached the height the batch was prepared for, and a batch that
stops before leaves it so.
-/

namespace Nerva

open BlockchainDB

namespace Blockchain

/-- The chain as a node has it that was restarted on its database: the cache starts empty. -/
def restarted (bc : Blockchain) : Blockchain :=
  { bc with longTermCache := .create fun _ => 0 }.updateNextCumulativeWeightLimit none false

/-- The kept median and limit are those computed from the database for the tip. -/
def LimitFresh (bc : Blockchain) : Prop :=
  bc.currentBlockCumulWeightMedian = bc.restarted.currentBlockCumulWeightMedian ∧
  bc.currentBlockCumulWeightLimit = bc.restarted.currentBlockCumulWeightLimit

/-- The median that is computed from the database. -/
def storedCumulWeightMedian (bc : Blockchain) : ℕ :=
  { bc with longTermEffectiveMedianBlockWeight := bc.longTermEffectiveMedian }.cumulWeightMedian

variable {bc bc' : Blockchain}

theorem cumulWeightMedian_congr (hshort : bc'.db.shortTermMedian = bc.db.shortTermMedian)
    (hversion : bc'.getCurrentHardForkVersion = bc.getCurrentHardForkVersion)
    (hlong : bc.Weighs →
      bc'.longTermEffectiveMedianBlockWeight = bc.longTermEffectiveMedianBlockWeight) :
    bc'.cumulWeightMedian = bc.cumulWeightMedian := by
  unfold cumulWeightMedian
  simp only [hversion, hshort]
  by_cases hold : bc.getCurrentHardForkVersion < hfVersionLongTermBlockWeight
  · simp only [if_pos hold]
  · simp only [if_neg hold, hlong (Nat.not_lt.mp hold)]

theorem storedCumulWeightMedian_congr (hblocks : bc'.db.blocks = bc.db.blocks)
    (hversion : bc'.getCurrentHardForkVersion = bc.getCurrentHardForkVersion) :
    bc'.storedCumulWeightMedian = bc.storedCumulWeightMedian := by
  have hrange : bc'.db.range = bc.db.range := by
    funext start stop
    unfold range
    rw [hblocks]
  have hheight : bc'.db.height = bc.db.height := congrArg List.length hblocks
  have hbelow : bc'.longTermWeightsBelowTop = bc.longTermWeightsBelowTop := by
    unfold longTermWeightsBelowTop longTermBlockWeights
    rw [hrange, hheight]
  refine cumulWeightMedian_congr ?_ hversion fun _ => ?_
  · unfold shortTermMedian lastNBlocksWeights
    simp only []
    rw [hrange, hheight]
  · unfold longTermEffectiveMedian
    simp only []
    rw [hbelow, hheight, hblocks]

/-- Where the long-term part is exact, an update leaves what the database gives, or leaves the limit
alone. -/
theorem update_of_exact {pre : Option ℕ} (midBatch : Bool)
    (hexact : bc.Weighs → ∃ u, bc.longTermCache.updateLongTerm bc pre = some u ∧
      LongTermCache.UpdateExact bc u) :
    ((bc.updateNextCumulativeWeightLimit pre midBatch).currentBlockCumulWeightMedian =
        bc.storedCumulWeightMedian ∧
      (bc.updateNextCumulativeWeightLimit pre midBatch).currentBlockCumulWeightLimit =
        bc.storedCumulWeightMedian * 2) ∨ (bc.Weighs ∧ midBatch = true) := by
  by_cases hnew : bc.Weighs
  · obtain ⟨u, hu, heffective⟩ := hexact hnew
    rw [updateNextCumulativeWeightLimit_new midBatch hnew hu]
    cases midBatch with
    | true => exact .inr ⟨hnew, rfl⟩
    | false =>
      have hmedian : { bc with longTermCache := u.cache
                               longTermEffectiveMedianBlockWeight :=
                                 u.longTermEffectiveMedian }.cumulWeightMedian =
          bc.storedCumulWeightMedian :=
        cumulWeightMedian_congr rfl rfl fun _ => heffective.effective
      exact .inl ⟨hmedian, congrArg (· * 2) hmedian⟩
  · rw [updateNextCumulativeWeightLimit_old pre midBatch (Nat.not_le.mp hnew)]
    have hmedian : bc.cumulWeightMedian = bc.storedCumulWeightMedian :=
      cumulWeightMedian_congr rfl rfl fun h => absurd h hnew
    exact .inl ⟨hmedian, congrArg (· * 2) hmedian⟩

theorem restarted_eq (hpos : 0 < bc.db.height) :
    bc.restarted.currentBlockCumulWeightMedian = bc.storedCumulWeightMedian ∧
      bc.restarted.currentBlockCumulWeightLimit = bc.storedCumulWeightMedian * 2 := by
  obtain ⟨u, hu, hexact, -⟩ := (LongTermCache.fits_create (fun _ => 0) bc _).update hpos
  have hrestart : ({ bc with longTermCache := .create fun _ => 0 } : Blockchain).Weighs →
      ∃ u, (LongTermCache.create fun _ => 0).updateLongTerm
          { bc with longTermCache := .create fun _ => 0 } none = some u ∧
        LongTermCache.UpdateExact { bc with longTermCache := .create fun _ => 0 } u := fun _ =>
    ⟨u, hu, hexact.median, hexact.effective⟩
  exact (update_of_exact false hrestart).elim id fun hmid => by cases hmid.2

/-- The limit is fresh when it is computed from the stored weights. -/
theorem limitFresh_iff (hpos : 0 < bc.db.height) :
    bc.LimitFresh ↔ bc.currentBlockCumulWeightMedian = bc.storedCumulWeightMedian ∧
      bc.currentBlockCumulWeightLimit = bc.storedCumulWeightMedian * 2 := by
  unfold LimitFresh
  rw [(restarted_eq hpos).1, (restarted_eq hpos).2]

theorem LimitFresh.congr (h : bc.LimitFresh) (hpos : 0 < bc.db.height)
    (hblocks : bc'.db.blocks = bc.db.blocks)
    (hversion : bc'.getCurrentHardForkVersion = bc.getCurrentHardForkVersion)
    (hmedian : bc'.currentBlockCumulWeightMedian = bc.currentBlockCumulWeightMedian)
    (hlimit : bc'.currentBlockCumulWeightLimit = bc.currentBlockCumulWeightLimit) :
    bc'.LimitFresh := by
  have hpos' : 0 < bc'.db.height := by
    rwa [BlockchainDB.height, hblocks]
  rw [limitFresh_iff hpos] at h
  rw [limitFresh_iff hpos', storedCumulWeightMedian_congr hblocks hversion, hmedian, hlimit]
  exact h

/-- An update whose long term median is exact leaves the limit fresh. -/
theorem updateNextCumulativeWeightLimit_fresh (bc : Blockchain) (pre : Option ℕ)
    (hpos : 0 < bc.db.height) (midBatch : Bool)
    (hexact : bc.Weighs → ∃ u, bc.longTermCache.updateLongTerm bc pre = some u ∧
      LongTermCache.UpdateExact bc u) :
    (bc.updateNextCumulativeWeightLimit pre midBatch).LimitFresh ∨
      (bc.Weighs ∧ midBatch = true) := by
  have hpos' : 0 < (bc.updateNextCumulativeWeightLimit pre midBatch).db.height := by
    rwa [updateNextCumulativeWeightLimit_db]
  refine (update_of_exact midBatch hexact).imp (fun hupdate => ?_) id
  rw [limitFresh_iff hpos', storedCumulWeightMedian_congr]
  · exact hupdate
  · rw [updateNextCumulativeWeightLimit_db]
  · unfold getCurrentHardForkVersion
    rw [updateNextCumulativeWeightLimit_hardfork]

end Blockchain

/-- The update in the middle of a batch is skipped. -/
def Node.limitStale (node : Node) : Bool :=
  decide (hfVersionLongTermBlockWeight ≤ node.bc.getCurrentHardForkVersion) &&
    node.midBatch node.bc.db.height

section Limit

variable {ce : ChainEnv} {t : ForkTable} {w : ℕ} {node node' : Node}

theorem SameMain.limitFresh (h : SameMain node node') (hpos : 0 < node.bc.db.height)
    (hfresh : node.bc.LimitFresh) : node'.bc.LimitFresh :=
  hfresh.congr hpos h.blocks (congrArg HardFork.getCurrentVersion h.hardfork) h.median h.limit

theorem SameMain.limitStale (h : SameMain node node') : node'.limitStale = node.limitStale := by
  unfold Node.limitStale Node.midBatch Blockchain.getCurrentHardForkVersion
  rw [h.hardfork, h.prepareNblocks, h.batchStartHeight, h.height]

theorem SameMain.crossedLight (h : SameMain node node') (hlight : node'.bc.CrossedLight) :
    node.bc.CrossedLight :=
  hlight.congr h.blocks.symm (by rw [h.hardfork])

theorem storeBlock_batch (ce : ChainEnv) (node : Node) (info : BlockInfo) (pool : TxPool) :
    (node.storeBlock ce info pool).prepareNblocks = node.prepareNblocks ∧
      (node.storeBlock ce info pool).batchStartHeight = node.batchStartHeight := by
  unfold Node.storeBlock Node.revalidateFrom
  simp only []
  split
  · exact ⟨rfl, rfl⟩
  · split <;> exact ⟨rfl, rfl⟩

/-- The long-term weights are as the rule has them, and the limit is fresh or stale on purpose, in
both cases if the block that took the chain to version 12 is light. -/
structure Node.Limits (node : Node) : Prop where
  weighed : node.bc.Weighed
  limit : node.bc.CrossedLight → node.bc.LimitFresh ∨ node.limitStale = true

theorem Node.Limits.sameMain (h : node.Limits) (hpos : 0 < node.bc.db.height)
    (hmain : SameMain node node') (hweighed : node'.bc.Weighed) : node'.Limits :=
  ⟨hweighed, fun hlight => (h.limit (hmain.crossedLight hlight)).imp (hmain.limitFresh hpos)
    fun hstale => hmain.limitStale.trans hstale⟩

section

variable (h : node.Limits) (htrack : node.OnTrack t w)

include h htrack

theorem Node.Limits.refuse (b : Block) (refusal : BlockRefusal) (taken : TakenTxs) :
    (node.refuseBlock ce b refusal taken).Limits := by
  refine h.sameMain htrack.genesis (sameMain_refuseBlock ce node b refusal taken) ?_
  have hfollows := htrack.follows
  cases hdb : refusal.abortsBatch with
  | true =>
    refine (h.weighed.asked hfollows.noVoting hfollows.sync htrack.genesis).congr rfl rfl ?_
    unfold Node.refuseBlock
    rw [hdb]
    rfl
  | false =>
    refine h.weighed.congr rfl rfl ?_
    unfold Node.refuseBlock
    rw [hdb]
    rfl

theorem Node.Limits.store {b : Block} {diffic : UInt64} {info : BlockInfo} {pool : TxPool}
    (hcheck : node.bc.hardfork.check b = true)
    (htake : takeBlockTxs ce node.bc diffic node.pool b = .ok (info, pool)) :
    (node.storeBlock ce info pool).Limits := by
  obtain ⟨es, -, -, -, -, -, hstores⟩ := takeBlockTxs_ok htake
  have hbl := hstores.bl
  obtain ⟨reward, next, -, hnext, hinfo⟩ := hstores.paid
  have hnext' : node.bc.getNextLongTermBlockWeight info.blockWeight = some next := by
    rw [hinfo]
    exact hnext
  have hfollows := htrack.follows
  obtain ⟨hweighed, hexact⟩ := h.weighed.add hfollows.noVoting hfollows.sync htrack.genesis
    (hbl ▸ hcheck) hnext' (by rw [hinfo]) (node.midBatch (node.bc.db.height + 1))
  have hbc := storeBlock_bc ce node info pool
  obtain ⟨cache, hcache⟩ := getDifficultyForNextBlock_snd ce.toEnv ce.fns
    (node.bc.addBlockWeighed info (node.midBatch (node.bc.db.height + 1)))
  rw [hcache] at hbc
  refine ⟨by rw [hbc]; exact hweighed.congr rfl rfl rfl, fun hlight => ?_⟩
  have hpos : 0 < (node.bc.addBlock info).db.height := by
    simp [BlockchainDB.height]
  have hlight' : (node.bc.addBlock info).CrossedLight := by
    rw [hbc] at hlight
    exact hlight.congr (by simp) (by simp)
  have hfresh := Blockchain.updateNextCumulativeWeightLimit_fresh
    { node.bc.addBlock info with longTermCache := next.cache } next.longTermMedian hpos
    (node.midBatch (node.bc.db.height + 1)) fun hnew => by
      obtain ⟨u, hu, heffective⟩ := hexact hlight' hnew
      exact ⟨u, hu, heffective.median, heffective.effective⟩
  have hadd : node.bc.addBlockWeighed info (node.midBatch (node.bc.db.height + 1)) =
      { node.bc.addBlock info with longTermCache := next.cache }.updateNextCumulativeWeightLimit
        next.longTermMedian (node.midBatch (node.bc.db.height + 1)) := by
    unfold Blockchain.addBlockWeighed
    rw [nextLongTermMedian_of_some hnext']
  rw [← hadd] at hfresh
  rcases hfresh with hfresh | ⟨hversion, hmid⟩
  · rw [hbc]
    refine .inl (hfresh.congr ?_ rfl rfl rfl rfl)
    rw [addBlockWeighed_db]
    exact hpos
  · right
    obtain ⟨hnblocks, hstart⟩ := storeBlock_batch ce node info pool
    have hheight : (node.storeBlock ce info pool).bc.db.height = node.bc.db.height + 1 := by
      unfold height
      rw [storeBlock_blocks, List.length_append, List.length_singleton]
    have hcurrent : (node.storeBlock ce info pool).bc.getCurrentHardForkVersion =
        (node.bc.addBlock info).getCurrentHardForkVersion := by
      rw [hbc]
      unfold Blockchain.getCurrentHardForkVersion
      simp only [addBlockWeighed_hardfork]
    have hversion : hfVersionLongTermBlockWeight ≤
      (node.bc.addBlock info).getCurrentHardForkVersion := hversion
    unfold Node.limitStale Node.midBatch at *
    rw [hcurrent, hheight, hnblocks, hstart, hmid, decide_eq_true hversion]
    rfl

theorem Node.Limits.pop {b : Block} (hpop : node.popBlockFromBlockchain ce = some (b, node')) :
    node'.Limits := by
  obtain ⟨hmore, hbc⟩ := popBlockFromBlockchain_bc hpop
  have hfollows := htrack.follows
  obtain ⟨hweighed, hexact⟩ := h.weighed.pop hfollows.noVoting hfollows.sync htrack.genesis
    { node.bc.popBlock with scanTable := [] } hmore rfl rfl
    (WeighedChain.popBlock_longTermCache node.bc)
  rw [← hbc] at hweighed
  refine ⟨hweighed, fun hlight => ?_⟩
  have hcut := (WeighedChain.cut_popBlock hmore).height
  have hfresh := Blockchain.updateNextCumulativeWeightLimit_fresh
    { node.bc.popBlock with scanTable := [] } none
    (by simp only []; omega) false (hexact ?_)
  · rw [← hbc] at hfresh
    exact hfresh.imp id fun hmid => by cases hmid.2
  · rw [hbc] at hlight
    exact hlight.congr (by simp) (by simp)

theorem Node.Limits.reorganize (height : ℕ) : (node.reorganizeFromChainHeight height).Limits := by
  have hblocks := reorganizeFromChainHeight_db_blocks node height
  have hheight : (node.reorganizeFromChainHeight height).bc.db.height = node.bc.db.height :=
    congrArg List.length hblocks
  have htrack' := (htrack.reorganize height).1
  have hheights : (node.reorganizeFromChainHeight height).bc.hardfork.heights =
      node.bc.hardfork.heights := htrack'.heights.trans htrack.heights.symm
  have hversion : (node.reorganizeFromChainHeight height).bc.getCurrentHardForkVersion =
      node.bc.getCurrentHardForkVersion := by
    unfold Blockchain.getCurrentHardForkVersion
    rw [htrack.follows.sync.version, htrack'.follows.sync.version, hheights, hheight]
  refine ⟨h.weighed.congr hblocks hheights rfl, fun hlight => ?_⟩
  refine (h.limit (hlight.congr hblocks.symm hheights.symm)).imp
    (fun hfresh => hfresh.congr htrack.genesis hblocks hversion rfl rfl) fun hstale => ?_
  unfold Node.limitStale Node.midBatch at *
  rw [hversion, hheight]
  exact hstale

end

/-- Every move keeps the limits. -/
theorem Move.limits (hmove : Move ce node node') (htrack : node.OnTrack t w) (h : node.Limits) :
    node'.Limits := by
  cases hmove with
  | aside haside =>
    exact h.sameMain htrack.genesis haside.toSameMain
      (h.weighed.congr haside.blocks (by rw [haside.hardfork]) haside.longTermCache)
  | refuse b refusal => exact h.refuse htrack b refusal _
  | store hcheck htake => exact h.store htrack hcheck htake
  | pop hpop => exact h.pop htrack hpop
  | reorganize height => exact h.reorganize htrack height
  | incoming tx =>
    have haside := addIncomingTx_sameMain ce node tx
    refine h.sameMain htrack.genesis haside
      (h.weighed.congr haside.blocks (by rw [haside.hardfork]) ?_)
    unfold Node.addIncomingTx
    simp only []
    split <;> rfl

theorem Moves.limits (hmoves : Moves ce node node') (htrack : node.OnTrack t w) (h : node.Limits) :
    node'.Limits := by
  have hkeep := Moves.keep (P := fun node => node.OnTrack t w ∧ node.Limits)
    (fun hmove hP => ⟨hmove.onTrack hP.1, hmove.limits hP.1 hP.2⟩) hmoves ⟨htrack, h⟩
  exact hkeep.2

end Limit

/-- Batches one after the other, each of which has left results and a node before cleaning up that
satisfy `P`. The pool after an aborted batch can be any, since its table has gone back as well. -/
inductive Runs (ce : ChainEnv) (P : List AddResult → Node → Prop) : Node → List Batch → Node → Prop
  | nil (node : Node) : Runs ce P node [] node
  | cons {node last node' : Node} {batch : Batch} {rest : List Batch} {rs : List AddResult}
      {fuel : ℕ} (pool : TxPool)
      (hrun : (node.prepareBlocks batch).handleEntries ce fuel batch.entries = some (rs, last))
      (hP : P rs last) (hpool : last.batchSuccess = true → pool = last.pool)
      (hrest : Runs ce P { last.cleanupBlocks node.bc.db with pool } rest node') :
      Runs ce P node (batch :: rest) node'

/-- A batch that was committed with a fresh limit on a chain that has come to version 12 by a light
block, if at all, or none of whose blocks touched the main chain. -/
def Refreshes (rs : List AddResult) (last : Node) : Prop :=
  (last.batchSuccess = true ∧ last.limitStale = false ∧ last.bc.CrossedLight) ∨
    ∀ r ∈ rs, r.quiet = true

section Runs

variable {ce : ChainEnv} {t : ForkTable} {w : ℕ} {node last : Node} {batch : Batch}
  {rs : List AddResult} {fuel : ℕ}

theorem prepareBlocks_bc (node : Node) (batch : Batch) :
    ∃ scanTable, (node.prepareBlocks batch).bc = { node.bc with scanTable } := by
  unfold Node.prepareBlocks
  split <;> exact ⟨_, rfl⟩

theorem limits_prepareBlocks (hpos : 0 < node.bc.db.height) (hweighed : node.bc.Weighed)
    (hfresh : node.bc.LimitFresh) (batch : Batch) : (node.prepareBlocks batch).Limits := by
  obtain ⟨scanTable, hbc⟩ := prepareBlocks_bc node batch
  refine ⟨?_, fun _ => .inl ?_⟩
  · rw [hbc]
    exact hweighed.congr rfl rfl rfl
  · rw [hbc]
    exact hfresh.congr hpos rfl rfl rfl rfl

/-- What holds between two batches. -/
structure Node.Settled (t : ForkTable) (windowSize : ℕ) (node : Node) : Prop where
  track : node.OnTrack t windowSize
  weighed : node.bc.Weighed
  fresh : node.bc.LimitFresh

/-- A batch that refreshes leaves the node settled. -/
theorem Refreshes.cleanupBlocks (h : Refreshes rs last) (hsettled : node.Settled t w)
    (hrun : (node.prepareBlocks batch).handleEntries ce fuel batch.entries = some (rs, last)) :
    (last.cleanupBlocks node.bc.db).Settled t w := by
  obtain ⟨htrack, hweighed, hfresh⟩ := hsettled
  obtain ⟨hmoves, hquiet⟩ := handleEntries_moves hrun
  obtain ⟨scanTable, hbc⟩ := prepareBlocks_bc node batch
  have hprepared := limits_prepareBlocks htrack.genesis hweighed hfresh batch
  have htrack' := hmoves.onTrack (htrack.prepareBlocks batch)
  have hlimits := hmoves.limits (htrack.prepareBlocks batch) hprepared
  rcases h with ⟨hsuccess, hstale, hlight⟩ | hall
  · have hcommitted : (last.cleanupBlocks node.bc.db).bc.db = last.bc.db := by
      unfold Node.cleanupBlocks
      rw [hsuccess]
      rfl
    refine ⟨htrack'.congr hcommitted rfl, hlimits.weighed.congr (by rw [hcommitted]) rfl rfl, ?_⟩
    rcases hlimits.limit hlight with hfresh | hstale'
    · exact hfresh.congr htrack'.genesis (by rw [hcommitted]) rfl rfl rfl
    · rw [hstale] at hstale'
      cases hstale'
  · have hmain := hquiet hall
    -- committed or not, the blocks are those from before the batch
    have hblocks : (last.cleanupBlocks node.bc.db).bc.db.blocks = last.bc.db.blocks := by
      unfold Node.cleanupBlocks
      split
      · rfl
      · rw [hmain.blocks, hbc]
    have hversions : (last.cleanupBlocks node.bc.db).bc.db.hfVersions = last.bc.db.hfVersions := by
      unfold Node.cleanupBlocks
      split
      · rfl
      · rw [hmain.hfVersions, hbc]
    have hheight : (last.cleanupBlocks node.bc.db).bc.db.height = last.bc.db.height :=
      congrArg List.length hblocks
    refine ⟨⟨htrack'.heights, htrack'.size, ?_, ?_, ?_⟩, hlimits.weighed.congr hblocks rfl rfl, ?_⟩
    · rw [hheight]
      exact htrack'.follows.congr hversions
    · rw [hblocks]
      exact htrack'.carried
    · rw [hheight]
      exact htrack'.genesis
    · have hpos : 0 < (node.prepareBlocks batch).bc.db.height := by
        rw [hbc]
        exact htrack.genesis
      have hfresh' : (node.prepareBlocks batch).bc.LimitFresh := by
        rw [hbc]
        exact hfresh.congr htrack.genesis rfl rfl rfl rfl
      exact (hmain.limitFresh hpos hfresh').congr htrack'.genesis hblocks rfl rfl rfl

/-- After any sequence of batches that refresh, the limit is that of the database. -/
theorem limitFresh_of_runs (ce : ChainEnv) (t : ForkTable) (w : ℕ) {node node' : Node}
    {batches : List Batch} (h : Runs ce Refreshes node batches node') (htrack : node.OnTrack t w)
    (hweighed : node.bc.Weighed) (hfresh : node.bc.LimitFresh) : node'.bc.LimitFresh := by
  induction h with
  | nil => exact hfresh
  | cons pool hrun hP hpool hrest ih =>
    obtain ⟨htrack', hweighed', hfresh'⟩ := hP.cleanupBlocks ⟨htrack, hweighed, hfresh⟩ hrun
    exact ih (htrack'.congr rfl rfl) hweighed' hfresh'

/-- After any committed batches the hard fork state is the one that a restart would build. -/
theorem inStepWith_of_runs {node node' : Node} {batches : List Batch}
    (h : Runs ce (fun _ last => last.batchSuccess = true) node batches node')
    (htrack : node.OnTrack t w) (hwindow : node.WindowOk) :
    node'.bc.hardfork.InStepWith node'.bc.db := by
  induction h with
  | nil => exact ⟨htrack.follows.sync.version,
      hwindow.trans (HardFork.init_versions htrack.follows.windowSize _).symm⟩
  | @cons node last _ batch _ _ _ pool hrun hsuccess _ _ ih =>
    have hdb : ({ last.cleanupBlocks node.bc.db with pool } : Node).bc.db = last.bc.db :=
      if_pos hsuccess
    have htrack' := (handleEntries_moves hrun).1.onTrack (htrack.prepareBlocks batch)
    have hwindow' := handleEntries_windowOk (htrack.prepareBlocks batch)
      (hwindow.prepareBlocks batch) hrun
    refine ih (htrack'.congr hdb rfl) ?_
    rw [Node.WindowOk, hdb]
    exact hwindow'

end Runs

def Node.refreshed (node : Node) : Node := { node with bc := node.bc.restarted }

theorem restarted_limitFresh {bc : Blockchain} (hpos : 0 < bc.db.height) :
    bc.restarted.LimitFresh := by
  obtain ⟨hmedian, hlimit⟩ := Blockchain.restarted_eq hpos
  have hdb : bc.restarted.db = bc.db := updateNextCumulativeWeightLimit_db _ _ _
  rw [Blockchain.limitFresh_iff (by rwa [hdb]), Blockchain.storedCumulWeightMedian_congr
    (congrArg blocks hdb)
    (congrArg HardFork.getCurrentVersion (updateNextCumulativeWeightLimit_hardfork _ _ _))]
  exact ⟨hmedian, hlimit⟩

theorem Blockchain.crossedLight_of_old {bc : Blockchain}
    (hold : bc.hardfork.heights.versionAt bc.db.height < hfVersionLongTermBlockWeight) :
    bc.CrossedLight := by
  intro height info _ hinfo _ hnew
  have hlt : height < bc.db.height := (List.getElem?_eq_some_iff.mp hinfo).1
  have hmono := bc.hardfork.heights.versionAt_mono (Nat.succ_le_of_lt hlt)
  exact absurd (hnew.trans hmono) (Nat.not_le.mpr hold)

def oneBlockBatch : Batch where
  nblocks := 1
  entries := [{ block := (paidInfo 8).bl }]

theorem limitFresh_of_runs_oneBlock :
    ∃ node', Runs paidEnv Refreshes (trackedNode 8).refreshed [oneBlockBatch] node' ∧
      node'.bc.LimitFresh := by
  have htrack : (trackedNode 8).refreshed.OnTrack ForkTable.testnet 10080 :=
    trackedNode_onTrack.congr (updateNextCumulativeWeightLimit_db _ _ _)
      (updateNextCumulativeWeightLimit_hardfork _ _ _)
  have hweighed : (trackedNode 8).refreshed.bc.Weighed :=
    Blockchain.weighed_of_old (LongTermCache.fits_create _ _ _) (by decide +kernel)
  have hrun : (((trackedNode 8).refreshed.prepareBlocks oneBlockBatch).handleEntries paidEnv 1
      oneBlockBatch.entries).map (fun r => (r.2.batchSuccess, r.2.limitStale,
        decide (r.2.bc.hardfork.getCurrentVersion < hfVersionLongTermBlockWeight))) =
        some (true, false, true) := by decide +kernel
  obtain ⟨⟨rs, last⟩, heq, hr⟩ := Option.map_eq_some_iff.mp hrun
  simp only [Prod.mk.injEq, decide_eq_true_eq] at hr
  obtain ⟨hsuccess, hstale, hold⟩ := hr
  have htrack' := (handleEntries_moves heq).1.onTrack (htrack.prepareBlocks oneBlockBatch)
  rw [htrack'.follows.sync.version] at hold
  have hrefreshes : Refreshes rs last :=
    .inl ⟨hsuccess, hstale, Blockchain.crossedLight_of_old hold⟩
  have hruns := Runs.cons last.pool heq hrefreshes (fun _ => rfl) (.nil _)
  exact ⟨_, hruns, limitFresh_of_runs paidEnv ForkTable.testnet 10080 hruns htrack hweighed
    (restarted_limitFresh (by decide +kernel))⟩

theorem inStepWith_of_runs_oneBlock :
    ∃ node', Runs paidEnv (fun _ last => last.batchSuccess = true) (trackedNode 8) [oneBlockBatch]
      node' ∧ node'.bc.hardfork.InStepWith node'.bc.db := by
  have hrun : (((trackedNode 8).prepareBlocks oneBlockBatch).handleEntries paidEnv 1
      oneBlockBatch.entries).map (·.2.batchSuccess) = some true := by decide +kernel
  obtain ⟨⟨rs, last⟩, heq, hsuccess⟩ := Option.map_eq_some_iff.mp hrun
  have hruns := Runs.cons (P := fun _ last => last.batchSuccess = true) last.pool heq hsuccess
    (fun _ => rfl) (.nil _)
  exact ⟨_, hruns, inStepWith_of_runs hruns trackedNode_onTrack rfl⟩

def heavyEnv : ChainEnv :=
  { paidEnv with txWeight := fun tx => if tx.vin = [.gen 750] then 600000 else 80 }

/-- Half of the last hundred blocks of this chain are heavy, as is the first block of the batch; the
second one does not carry the version. -/
def stoppedBatch : Batch where
  nblocks := 2
  entries := [
    { block :=
        paidBlock 750 750 750 (penalisedReward (baseReward (minedCoins 749)) 300040 600000) [] },
    { block := { paidBlock 751 751 751 0 [] with majorVersion := 0 } }]

def surgeStart : Node :=
  { (surgeNode 750).tracked with
    bc := { (surgeNode 750).tracked.bc with
      currentBlockCumulWeightMedian := 300040
      currentBlockCumulWeightLimit := 600080 } }

set_option maxRecDepth 100000 in
/-- The batch stops after the block at height 750, and the limit stays at 600080 where the chain
asks for 1200000. -/
theorem stoppedBatch_not_limitFresh :
    surgeStart.bc.LimitFresh ∧
    ∃ rs node', surgeStart.runBatch heavyEnv 1 stoppedBatch = some (rs, node') ∧
      node'.bc.db.height = 751 ∧ node'.bc.currentBlockCumulWeightLimit = 600080 ∧
      node'.bc.restarted.currentBlockCumulWeightLimit = 1200000 ∧ ¬node'.bc.LimitFresh := by
  have hrun : (surgeStart.runBatch heavyEnv 1 stoppedBatch).map (fun r =>
      (r.2.bc.db.height, r.2.bc.currentBlockCumulWeightLimit,
        r.2.bc.storedCumulWeightMedian)) = some (751, 600080, 600000) := by decide +kernel
  obtain ⟨⟨rs, node'⟩, heq, hr⟩ := Option.map_eq_some_iff.mp hrun
  simp only [Prod.mk.injEq] at hr
  obtain ⟨hheight, hlimit, hmedian⟩ := hr
  have hpos : 0 < node'.bc.db.height := by omega
  have hrestarted := Blockchain.restarted_eq hpos
  rw [hmedian] at hrestarted
  refine ⟨?_, rs, node', heq, hheight, hlimit, hrestarted.2, fun hfresh => ?_⟩
  · rw [Blockchain.limitFresh_iff (by decide +kernel)]
    decide +kernel
  · have := hfresh.2
    omega

end Nerva
