import Nerva.Proofs.Moves

/-!
# A rolled-back batch and the hard fork state

Every move keeps the fork index and the recorded versions those of the chain, and every block that
has been dealt with leaves the voting window that of the chain. When a batch is aborted, the hard
fork state is that of the chain the batch had reached.
-/

namespace Nerva

open List HardFork

/-- The hard fork state is the one of this database: its version is the one scheduled for the
height, its window the one that restoring it would build. -/
def HardFork.InStepWith (hf : HardFork) (db : BlockchainDB) : Prop :=
  hf.getCurrentVersion = hf.heights.versionAt db.height ∧ hf.versions = (hf.init db).versions

instance (hf : HardFork) (db : BlockchainDB) : Decidable (hf.InStepWith db) :=
  inferInstanceAs (Decidable (_ ∧ _))

variable {hf : HardFork} {node' : Node}

theorem HardFork.windowOf_congr {hf' : HardFork} (hheights : hf'.heights = hf.heights)
    (hsize : hf'.windowSize = hf.windowSize) (blocks : List BlockInfo) :
    hf'.windowOf blocks = hf.windowOf blocks := by
  unfold windowOf getEffectiveVersion
  rw [hheights, hsize]

theorem HardFork.Follows.congr {db db' : BlockchainDB} {height : ℕ} (h : hf.Follows db height)
    (hdb : db'.hfVersions = db.hfVersions) : hf.Follows db' height :=
  ⟨h.noVoting, h.windowSize, h.original, h.sync, hdb ▸ h.recorded⟩

/-- The hard fork state of a node follows its chain, with this fork table and window size. -/
structure Node.OnTrack (t : ForkTable) (windowSize : ℕ) (node : Node) : Prop where
  heights : node.bc.hardfork.heights = t
  size : node.bc.hardfork.windowSize = windowSize
  follows : node.bc.hardfork.Follows node.bc.db node.bc.db.height
  carried : HardFork.CarriedFrom node.bc.hardfork.heights 0 node.bc.db.blocks
  genesis : 0 < node.bc.db.height

/-- The version window is that of the chain. -/
def Node.WindowOk (node : Node) : Prop :=
  node.bc.hardfork.versions = node.bc.hardfork.windowOf node.bc.db.blocks

variable {node : Node}

theorem SameMain.height (h : SameMain node node') : node'.bc.db.height = node.bc.db.height :=
  congrArg length h.blocks

theorem SameMain.windowOk (h : SameMain node node') (hwindow : node.WindowOk) : node'.WindowOk := by
  unfold Node.WindowOk
  rw [h.hardfork, h.blocks]
  exact hwindow

@[simp] theorem query_hardfork (env : Env) (fns : DifficultyFns) (bc : Blockchain) :
    (getDifficultyForNextBlock env fns bc).2.hardfork = bc.hardfork := by
  obtain ⟨cache, hcache⟩ := getDifficultyForNextBlock_snd env fns bc
  rw [hcache]

section Track

variable {ce : ChainEnv} {t : ForkTable} {w : ℕ} {node node' : Node} {info : BlockInfo} {b : Block}
  {r : Bool} {handleAlt : Node → Block → Option Node} {fuel : ℕ}

theorem Node.OnTrack.sameMain (h : node.OnTrack t w) (hmain : SameMain node node') :
    node'.OnTrack t w where
  heights := by rw [hmain.hardfork, h.heights]
  size := by rw [hmain.hardfork, h.size]
  follows := by
    rw [hmain.hardfork, hmain.height]
    exact h.follows.congr hmain.hfVersions
  carried := by
    rw [hmain.hardfork, hmain.blocks]
    exact h.carried
  genesis := by
    rw [hmain.height]
    exact h.genesis

theorem Node.OnTrack.congr (h : node.OnTrack t w) (hdb : node'.bc.db = node.bc.db)
    (hhf : node'.bc.hardfork = node.bc.hardfork) : node'.OnTrack t w := by
  refine ⟨?_, ?_, ?_, ?_, ?_⟩
  · rw [hhf, h.heights]
  · rw [hhf, h.size]
  · rw [hhf, hdb]
    exact h.follows
  · rw [hhf, hdb]
    exact h.carried
  · rw [hdb]
    exact h.genesis

section

variable (h : node.OnTrack t w)

include h

/-- An added block keeps the node on track, and the window with it. -/
theorem Node.OnTrack.addBlock (hcheck : node.bc.hardfork.check info.bl = true)
    (hbc : node'.bc.db = (node.bc.addBlock info).db)
    (hhf : node'.bc.hardfork = (node.bc.addBlock info).hardfork) :
    node'.OnTrack t w ∧ (node.WindowOk → node'.WindowOk) := by
  have hblocks : node'.bc.db.blocks = node.bc.db.blocks ++ [info] := by
    rw [hbc]
    simp
  have hheight : node'.bc.db.height = node.bc.db.height + 1 := by
    unfold BlockchainDB.height
    rw [hblocks, length_append, length_singleton]
  have hadd : node'.bc.hardfork = (node.bc.hardfork.pushVote info.bl).advance
      (node.bc.db.height + 1) := by
    rw [hhf, Blockchain.addBlock, add, if_pos hcheck]
  have hbefore : node.bc.hardfork.Follows { node.bc.db with blocks := node.bc.db.blocks ++ [info] }
      node.bc.db.height := h.follows.congr rfl
  have hfollows : (node.bc.addBlock info).hardfork.Follows (node.bc.addBlock info).db
      (node.bc.db.height + 1) := hbefore.add hcheck
  have hinfo := check_iff.mp hcheck
  rw [h.follows.sync.version] at hinfo
  refine ⟨⟨?_, ?_, ?_, ?_, ?_⟩, fun hwindow => ?_⟩
  · rw [hadd]
    exact h.heights
  · rw [hadd]
    exact h.size
  · rw [hhf, hbc, ← hbc, hheight, hbc]
    exact hfollows
  · rw [hadd, hblocks]
    exact h.carried.concat hinfo
  · rw [hheight]
    exact Nat.succ_pos _
  · unfold Node.WindowOk
    rw [hadd, hblocks]
    exact pushVote_versions h.follows.windowSize hwindow info

theorem Node.OnTrack.store (pool : TxPool) (hcheck : node.bc.hardfork.check b = true)
    (hbl : info.bl = b) :
    (node.storeBlock ce info pool).OnTrack t w ∧
      (node.WindowOk → (node.storeBlock ce info pool).WindowOk) :=
  h.addBlock (hbl ▸ hcheck) (by rw [storeBlock_bc]; simp) (by rw [storeBlock_bc]; simp)

theorem Node.OnTrack.pop (hpop : node.popBlockFromBlockchain ce = some (b, node')) :
    node'.OnTrack t w := by
  obtain ⟨hlarge, hbc⟩ := popBlockFromBlockchain_bc hpop
  have hhf : node'.bc.hardfork = node.bc.hardfork.onBlockPopped
      { node.bc.db with blocks := node.bc.db.blocks.dropLast } := by
    rw [hbc, updateNextCumulativeWeightLimit_hardfork, Blockchain.popBlock, if_pos hlarge]
  have hdb : node'.bc.db = { node.bc.db with blocks := node.bc.db.blocks.dropLast } := by
    rw [hbc, updateNextCumulativeWeightLimit_db, Blockchain.popBlock, if_pos hlarge]
  have hheight : node'.bc.db.height = node.bc.db.height - 1 := by
    rw [hdb]
    exact length_dropLast
  refine ⟨?_, ?_, ⟨?_, ?_, ?_, ?_, fun i hi => ?_⟩, ?_, ?_⟩
  · rw [hhf]
    exact h.heights
  · rw [hhf]
    exact h.size
  · rw [hhf]
    exact h.follows.noVoting
  · rw [hhf]
    exact h.follows.windowSize
  · rw [hhf]
    exact h.follows.original
  · rw [hhf, hdb]
    exact onBlockPopped_inSync _ _
  · rw [hhf, hdb]
    exact h.follows.recorded i (by omega)
  · rw [hhf, hdb]
    intro i info hi
    rw [getElem?_dropLast] at hi
    split at hi
    · exact h.carried i info hi
    · cases hi
  · omega

/-- A rescan within the chain makes the window right. -/
theorem Node.OnTrack.reorganize (height : ℕ) :
    (node.reorganizeFromChainHeight height).OnTrack t w ∧
      (node.WindowOk ∨ (0 < height ∧ height ≤ node.bc.db.height) →
        (node.reorganizeFromChainHeight height).WindowOk) := by
  obtain ⟨hfollows, hheights, hkeeps, hbuilds⟩ := h.follows.reorganize h.carried height
  have hsize := reorganizeFromChainHeight_windowSize node.bc.hardfork node.bc.db height
  have hblocks := reorganizeFromChainHeight_db_blocks node height
  have hheight : (node.reorganizeFromChainHeight height).bc.db.height = node.bc.db.height :=
    congrArg length hblocks
  refine ⟨⟨hheights.trans h.heights, hsize.trans h.size, ?_, ?_, ?_⟩, fun hwindow => ?_⟩
  · rw [hheight]
    exact hfollows
  · rw [hblocks]
    exact hheights.symm ▸ h.carried
  · rw [hheight]
    exact h.genesis
  · unfold Node.WindowOk
    rw [hblocks]
    rcases hwindow with hwindow | ⟨hpos, hle⟩
    · rcases hkeeps with hsame | hversions
      · have hhf : (node.reorganizeFromChainHeight height).bc.hardfork = node.bc.hardfork :=
          congrArg Prod.fst hsame
        rw [hhf]
        exact hwindow
      · exact hversions
    · exact hbuilds hpos hle

end

theorem Move.onTrack (hmove : Move ce node node') (h : node.OnTrack t w) : node'.OnTrack t w := by
  cases hmove with
  | aside haside => exact h.sameMain haside.toSameMain
  | refuse b refusal => exact h.sameMain (sameMain_refuseBlock ce node b refusal _)
  | store hcheck htake =>
    obtain ⟨es, -, -, -, -, -, hstores⟩ := takeBlockTxs_ok htake
    exact (h.store _ hcheck hstores.bl).1
  | pop hpop => exact h.pop hpop
  | reorganize height => exact (h.reorganize height).1
  | incoming tx => exact h.sameMain (addIncomingTx_sameMain ce node tx)

/-- All moves keep the node on track. -/
theorem Moves.onTrack (hmoves : Moves ce node node') (h : node.OnTrack t w) : node'.OnTrack t w :=
  hmoves.keep (fun hmove => hmove.onTrack) h

theorem handleBlockToMainChain_windowOk (ce : ChainEnv) (h : node.OnTrack t w)
    (hwindow : node.WindowOk) (b : Block) : (node.handleBlockToMainChain ce b).2.WindowOk := by
  have hquery := sameMain_query ce node
  rcases handleBlockToMainChain_cases ce node b with ⟨refusal, heq⟩ | ⟨refusal, heq⟩ |
    ⟨refusal, taken, htake, heq⟩ | ⟨info, pool, hlinks, htake, heq⟩
  · rw [heq]
    exact hwindow
  · rw [heq]
    exact hquery.windowOk hwindow
  · rw [heq]
    exact (sameMain_refuseBlock ce _ b refusal taken).windowOk (hquery.windowOk hwindow)
  · rw [heq]
    obtain ⟨es, -, -, -, -, -, hstores⟩ := takeBlockTxs_ok htake
    have hcheck := (hstores.addOk hlinks).version
    rw [hstores.bl] at hcheck
    exact ((h.sameMain hquery).store pool hcheck hstores.bl).2 (hquery.windowOk hwindow)

theorem connect_windowOk (ce : ChainEnv) :
    ∀ (bs : List Block) {node : Node}, node.OnTrack t w → node.WindowOk →
    (node.connect ce bs).2.WindowOk
  | [], _, _, hwindow => hwindow
  | b :: bs, node, h, hwindow => by
    have honTrack := (handleBlockToMainChain_moves ce node b).1.onTrack h
    have hnext := handleBlockToMainChain_windowOk ce h hwindow b
    rw [Node.connect]
    split
    · rename_i node₁ heq
      rw [heq] at honTrack hnext
      exact connect_windowOk ce bs honTrack hnext
    · rename_i heq
      rw [heq] at hnext
      exact hnext

theorem handleBlockToMainChain_height_le (ce : ChainEnv) (node : Node) (b : Block) :
    node.bc.db.height ≤ (node.handleBlockToMainChain ce b).2.bc.db.height := by
  rcases handleBlockToMainChain_cases ce node b with ⟨refusal, heq⟩ | ⟨refusal, heq⟩ |
    ⟨refusal, taken, htake, heq⟩ | ⟨info, pool, hlinks, htake, heq⟩
  · rw [heq]
  · rw [heq, (sameMain_query ce node).height]
  · rw [heq, (sameMain_refuseBlock ce _ b refusal taken).height, (sameMain_query ce node).height]
  · rw [heq]
    unfold BlockchainDB.height
    rw [storeBlock_blocks, query_db, length_append]
    exact Nat.le_add_right _ _

theorem connect_height_le (ce : ChainEnv) : ∀ (bs : List Block) (node : Node),
    node.bc.db.height ≤ (node.connect ce bs).2.bc.db.height
  | [], _ => le_rfl
  | b :: bs, node => by
    have hone := handleBlockToMainChain_height_le ce node b
    rw [Node.connect]
    split
    · rename_i node₁ heq
      rw [heq] at hone
      exact Nat.le_trans hone (connect_height_le ce bs node₁)
    · rename_i heq
      rw [heq] at hone
      exact hone

theorem rollbackBlockchainSwitching_windowOk (h : node.OnTrack t w) {originalChain : List Block}
    {rollbackHeight : ℕ} (hpos : 0 < rollbackHeight) (hle : rollbackHeight ≤ node.bc.db.height)
    (hroll : node.rollbackBlockchainSwitching ce originalChain rollbackHeight = some (r, node')) :
    node'.WindowOk := by
  unfold Node.rollbackBlockchainSwitching at hroll
  rw [if_neg (by omega)] at hroll
  simp only [Option.map_eq_some_iff, Prod.exists] at hroll
  obtain ⟨popped, node₁, hpop, hroll⟩ := hroll
  have hstop : node₁.bc.db.height = rollbackHeight := by
    have := popWhile_stop hpop
    simpa using this
  have htrack₁ := (popWhile_moves hpop).onTrack (h.sameMain (aside_forgetWindow node).toSameMain)
  obtain ⟨htrack₂, hrescan⟩ := htrack₁.reorganize rollbackHeight
  have hconnected := connect_windowOk ce originalChain htrack₂
    (hrescan (.inr ⟨hpos, by omega⟩))
  have htrack₃ := (connect_moves ce originalChain
    (node₁.reorganizeFromChainHeight rollbackHeight)).onTrack htrack₂
  split at hroll
  · cases hroll
    exact (htrack₃.reorganize rollbackHeight).2 (.inl hconnected)
  · cases hroll
    exact hconnected

/-- Handling a popped block changes nothing on the main chain, or leaves the window right. -/
def BuildsWindow (t : ForkTable) (w : ℕ) (handleAlt : Node → Block → Option Node) : Prop :=
  ∀ {node b node'}, node.OnTrack t w → handleAlt node b = some node' →
    SameMain node node' ∨ node'.WindowOk

theorem pushOldChain_windowOk
    (hmoves : ∀ {node b node'}, handleAlt node b = some node' → Moves ce node node')
    (halt : BuildsWindow t w handleAlt) {splitHeight : ℕ} :
    ∀ {bs : List Block} {node node' : Node}, node.OnTrack t w →
      node.pushOldChain handleAlt splitHeight bs = some node' → SameMain node node' ∨ node'.WindowOk
  | [], node, _, _, h => by
    cases h
    exact .inl (.refl node)
  | b :: bs, node, node', htrack, h => by
    rw [Node.pushOldChain] at h
    split at h
    · cases h
      exact .inl (.refl node)
    · obtain ⟨node₁, hhandle, hrest⟩ := Option.bind_eq_some_iff.mp h
      have hlater := pushOldChain_windowOk hmoves halt ((hmoves hhandle).onTrack htrack) hrest
      rcases halt htrack hhandle with hmain | hwindow
      · exact hlater.imp hmain.trans id
      · exact .inr (hlater.elim (fun hmain => hmain.windowOk hwindow) id)

/-- A switch that gets so far as to pop blocks leaves the window right. -/
theorem switchWith_windowOk
    (hmoves : ∀ {node b node'}, handleAlt node b = some node' → Moves ce node node')
    (halt : BuildsWindow t w handleAlt) (h : node.OnTrack t w) {altChain : List AltBlock}
    {discard : Bool} (hswitch : node.switchWith ce handleAlt altChain discard = some (r, node')) :
    SameMain node node' ∨ node'.WindowOk := by
  rcases switchWith_cases hswitch with rfl | ⟨more, fuel, popped, node₁, hpop, hend⟩
  · exact .inl (aside_forgetWindow node).toSameMain
  refine .inr ?_
  have htrack₁ := (popWhile_moves hpop).onTrack (h.sameMain (aside_forgetWindow node).toSameMain)
  have htrack₂ := (connect_moves ce (altChain.map (·.bl)) node₁).onTrack htrack₁
  have hle := connect_height_le ce (altChain.map (·.bl)) node₁
  rcases hend with ⟨node₂, node₃, hconnect, hpush, rfl⟩ |
    ⟨left, node₂, node₃, hconnect, ⟨r, hroll⟩, rfl⟩
  · rw [hconnect] at htrack₂ hle
    have hpushed : Moves ce node₂ node₃ ∧ (SameMain node₂ node₃ ∨ node₃.WindowOk) := by
      rcases hpush with rfl | hpush
      · exact ⟨Relation.ReflTransGen.refl, .inl (.refl node₃)⟩
      · exact ⟨pushOldChain_moves hmoves hpush, pushOldChain_windowOk hmoves halt htrack₂ hpush⟩
    have hremoved := (aside_removeAltBlocks ce.toEnv node₃ altChain).toSameMain
    refine (((hpushed.1.onTrack htrack₂).sameMain hremoved).reorganize _).2 ?_
    rcases hpushed.2 with hmain | hwindow
    · -- the height is still at least that of the split, and the rescan goes through
      refine .inr ⟨htrack₁.genesis, ?_⟩
      rw [hremoved.height, hmain.height]
      exact hle
    · exact .inl (hremoved.windowOk hwindow)
  · rw [hconnect] at htrack₂ hle
    exact (aside_dismiss ce.toEnv left node₃).windowOk
      (rollbackBlockchainSwitching_windowOk htrack₂ htrack₁.genesis hle hroll)

/-- An alternative block changes nothing on the main chain, or leaves the window right. -/
theorem handleAlternativeBlock_windowOk : ∀ {fuel : ℕ} {node node' : Node} {b : Block}
    {r : Except AltRefusal AltOutcome}, node.OnTrack t w →
    node.handleAlternativeBlock ce fuel b = some (r, node') → SameMain node node' ∨ node'.WindowOk
  | 0, _, _, _, _, _, h => by cases h
  | fuel + 1, node, node', b, r, htrack, h => by
    rcases handleAlternativeBlock_cases h with haside |
      ⟨node₁, altChain, discard, switched, haside, hswitch, -⟩
    · exact .inl haside.toSameMain
    · have hmain := haside.toSameMain
      refine (switchWith_windowOk ?_ ?_ (htrack.sameMain hmain) hswitch).imp hmain.trans id
      · intro node b node' hhandle
        obtain ⟨⟨r, node₂⟩, hinner, rfl⟩ := Option.map_eq_some_iff.mp hhandle
        exact handleAlternativeBlock_moves hinner
      · intro node b node' htrack hhandle
        obtain ⟨⟨r, node₂⟩, hinner, rfl⟩ := Option.map_eq_some_iff.mp hhandle
        exact handleAlternativeBlock_windowOk htrack hinner

theorem handleEntry_windowOk (h : node.OnTrack t w) (hwindow : node.WindowOk) {entry : BatchEntry}
    {r : AddResult} (hentry : node.handleEntry ce fuel entry = some (r, node')) :
    node'.WindowOk := by
  obtain ⟨hmain, hmoves⟩ := foldl_addIncomingTx_sameMain ce entry.txs node
  have htrack := h.sameMain hmain
  have hstart := hmain.windowOk hwindow
  rcases addNewBlock_cases hentry with ⟨-, hquiet, -⟩ | ⟨rfl, -, -⟩ | ⟨r', hhandle, -⟩
  · exact hquiet.windowOk hstart
  · exact handleBlockToMainChain_windowOk ce htrack hstart entry.block
  · rcases handleAlternativeBlock_windowOk htrack hhandle with hsame | hbuilt
    · exact hsame.windowOk hstart
    · exact hbuilt

/-- A batch keeps the window right. -/
theorem handleEntries_windowOk : ∀ {entries : List BatchEntry} {node node' : Node}
    {rs : List AddResult}, node.OnTrack t w → node.WindowOk →
    node.handleEntries ce fuel entries = some (rs, node') → node'.WindowOk
  | [], _, _, _, _, hwindow, h => by
    cases h
    exact hwindow
  | entry :: entries, node, node', rs, htrack, hwindow, h => by
    obtain ⟨⟨r, node₁⟩, hentry, h⟩ := Option.bind_eq_some_iff.mp h
    obtain ⟨⟨rs₁, node₂⟩, hrest, heq⟩ := Option.map_eq_some_iff.mp h
    cases heq
    exact handleEntries_windowOk ((handleEntry_moves hentry).1.onTrack htrack)
      (handleEntry_windowOk htrack hwindow hentry) hrest

end Track

theorem Node.OnTrack.prepareBlocks {t : ForkTable} {w : ℕ} (h : node.OnTrack t w) (batch : Batch) :
    (node.prepareBlocks batch).OnTrack t w := by
  unfold Node.prepareBlocks
  split <;> exact h.congr rfl rfl

theorem Node.WindowOk.prepareBlocks (h : node.WindowOk) (batch : Batch) :
    (node.prepareBlocks batch).WindowOk := by
  unfold Node.prepareBlocks
  split <;> exact h

/-- After an aborted batch the hard fork state is in step with the database exactly when the chain
the batch had reached has the version and the window of the chain before it. -/
theorem abortedBatch_inStepWith_iff (ce : ChainEnv) (fuel : ℕ) (node last : Node) (batch : Batch)
    (rs : List AddResult)
    (htrack : node.OnTrack node.bc.hardfork.heights node.bc.hardfork.windowSize)
    (hwindow : node.WindowOk)
    (hrun : (node.prepareBlocks batch).handleEntries ce fuel batch.entries = some (rs, last))
    (habort : last.batchSuccess = false) :
    (last.cleanupBlocks node.bc.db).bc.hardfork.InStepWith (last.cleanupBlocks node.bc.db).bc.db ↔
      node.bc.hardfork.heights.versionAt last.bc.db.height =
        node.bc.hardfork.heights.versionAt node.bc.db.height ∧
      node.bc.hardfork.windowOf last.bc.db.blocks =
        node.bc.hardfork.windowOf node.bc.db.blocks := by
  have htrack' := (handleEntries_moves hrun).1.onTrack (htrack.prepareBlocks batch)
  have hwindow' := handleEntries_windowOk (htrack.prepareBlocks batch) (hwindow.prepareBlocks batch)
    hrun
  have hhf : (last.cleanupBlocks node.bc.db).bc.hardfork = last.bc.hardfork := rfl
  have hdb : (last.cleanupBlocks node.bc.db).bc.db = node.bc.db := by
    unfold Node.cleanupBlocks
    rw [habort]
    rfl
  have hversion : last.bc.hardfork.getCurrentVersion =
      node.bc.hardfork.heights.versionAt last.bc.db.height := by
    rw [htrack'.follows.sync.version, htrack'.heights]
  have hversions : last.bc.hardfork.versions = node.bc.hardfork.windowOf last.bc.db.blocks := by
    rw [← windowOf_congr htrack'.heights htrack'.size]
    exact hwindow'
  unfold HardFork.InStepWith
  rw [hhf, hdb, hversion, hversions, htrack'.heights,
    init_versions htrack'.follows.windowSize,
    windowOf_congr htrack'.heights htrack'.size]

/-- The versions of the chain are recorded, and the window is that of the chain. -/
def Node.tracked (node : Node) : Node :=
  { node with bc := { node.bc with
      db := { node.bc.db with
        hfVersions := (range node.bc.db.height).map fun i =>
          (i, node.bc.hardfork.heights.versionAt i) }
      hardfork := { node.bc.hardfork with
        versions := node.bc.hardfork.windowOf node.bc.db.blocks } } }

def trackedNode (n : ℕ) : Node := (testnetNode ((range n).map paidInfo)).tracked

theorem paidInfo_carries (height : ℕ) :
    (paidInfo height).bl.Carries (ForkTable.testnet.versionAt height) := by
  refine ⟨rfl, ?_⟩
  change ForkTable.testnet.versionAt height ≤
    if ForkTable.testnet.versionAt height = 0 then 1 else _
  split
  · omega
  · exact le_rfl

theorem trackedNode_onTrack : (trackedNode 8).OnTrack ForkTable.testnet 10080 where
  heights := rfl
  size := rfl
  follows := ⟨by unfold ForkTable.NoVoting; decide, by decide, by decide, rfl, by decide⟩
  carried := by
    intro i info hi
    obtain ⟨k, hk, rfl⟩ := Option.map_eq_some_iff.mp ((getElem?_map ..).symm.trans hi)
    obtain ⟨hlt, hget⟩ := List.getElem?_eq_some_iff.mp hk
    rw [getElem_range] at hget
    rw [← hget, Nat.zero_add]
    exact paidInfo_carries i
  genesis := by decide

def spentTwice : List Transaction :=
  [bulletproofTx,
    { bulletproofTx with
      rctSignatures := { bulletproofTx.rctSignatures with txnFee := 1000000000001 } }]

/-- The last block of fork 7, and one of fork 8 that the database does not take. -/
def batchAcrossFork8 : Batch where
  nblocks := 2
  entries := [
    { block := (paidInfo 559).bl },
    { txs := spentTwice
      block := paidBlock 560 560 560 (paidReward 560 + 2000000000001)
        (spentTwice.map paidEnv.txHash) }]

def refusedBatch : Batch where
  nblocks := 1
  entries := [{ block := (paidInfo 8).bl, throws := true }]

theorem abortedBatch_inStepWith_iff_refusedBatch :
    ∃ rs last, ((trackedNode 8).prepareBlocks refusedBatch).handleEntries paidEnv 1
      refusedBatch.entries = some (rs, last) ∧ last.batchSuccess = false ∧
      ((last.cleanupBlocks (trackedNode 8).bc.db).bc.hardfork.InStepWith
          (last.cleanupBlocks (trackedNode 8).bc.db).bc.db ↔
        ForkTable.testnet.versionAt last.bc.db.height = ForkTable.testnet.versionAt 8 ∧
        (trackedNode 8).bc.hardfork.windowOf last.bc.db.blocks =
          (trackedNode 8).bc.hardfork.windowOf (trackedNode 8).bc.db.blocks) := by
  have hrun : (((trackedNode 8).prepareBlocks refusedBatch).handleEntries paidEnv 1
      refusedBatch.entries).map (·.2.batchSuccess) = some false := by decide +kernel
  obtain ⟨⟨rs, last⟩, heq, habort⟩ := Option.map_eq_some_iff.mp hrun
  exact ⟨rs, last, heq, habort, abortedBatch_inStepWith_iff paidEnv 1 (trackedNode 8) last
    refusedBatch rs trackedNode_onTrack rfl heq habort⟩

set_option maxRecDepth 100000 in
/-- The first block takes the hard fork state to version 8. The second one is refused by the
database, which goes back to height 559; the hard fork state does not. -/
theorem batchAcrossFork8_not_inStepWith :
    (trackedNode 559).bc.hardfork.InStepWith (trackedNode 559).bc.db ∧
    ∃ rs node', (trackedNode 559).runBatch paidEnv 1 batchAcrossFork8 = some (rs, node') ∧
      node'.bc.db.height = 559 ∧ node'.bc.hardfork.getCurrentVersion = 8 ∧
      ¬node'.bc.hardfork.InStepWith node'.bc.db := by
  have hrun : ((trackedNode 559).runBatch paidEnv 1 batchAcrossFork8).map (fun r =>
      (r.2.bc.db.height, r.2.bc.hardfork.getCurrentVersion,
        decide (r.2.bc.hardfork.InStepWith r.2.bc.db))) = some (559, 8, false) := by decide +kernel
  obtain ⟨⟨rs, node'⟩, heq, hr⟩ := Option.map_eq_some_iff.mp hrun
  simp only [Prod.mk.injEq, decide_eq_false_iff_not] at hr
  exact ⟨by decide +kernel, rs, node', heq, hr⟩

end Nerva
