import Nerva.Batch
import Nerva.Proofs.ForkState
import Nerva.Proofs.Reorg

/-!
# What handling a block is made of

Whatever becomes of an incoming block, the node is changed by a few kinds of moves only: a block is
stored, refused or popped, the hard fork state is rescanned, a transaction comes into the pool, or
something is done that the main chain does not notice.
-/

namespace Nerva

open Node Option Relation

/-- The main chain, and what is kept in step with it, are the same. -/
structure SameMain (node node' : Node) : Prop where
  blocks : node'.bc.db.blocks = node.bc.db.blocks
  hfVersions : node'.bc.db.hfVersions = node.bc.db.hfVersions
  hardfork : node'.bc.hardfork = node.bc.hardfork
  median : node'.bc.currentBlockCumulWeightMedian = node.bc.currentBlockCumulWeightMedian
  limit : node'.bc.currentBlockCumulWeightLimit = node.bc.currentBlockCumulWeightLimit
  prepareNblocks : node'.prepareNblocks = node.prepareNblocks
  batchStartHeight : node'.batchStartHeight = node.batchStartHeight

theorem SameMain.refl (node : Node) : SameMain node node := ⟨rfl, rfl, rfl, rfl, rfl, rfl, rfl⟩

theorem SameMain.trans {node node' node'' : Node} (h : SameMain node node')
    (h' : SameMain node' node'') : SameMain node node'' where
  blocks := h'.blocks.trans h.blocks
  hfVersions := h'.hfVersions.trans h.hfVersions
  hardfork := h'.hardfork.trans h.hardfork
  median := h'.median.trans h.median
  limit := h'.limit.trans h.limit
  prepareNblocks := h'.prepareNblocks.trans h.prepareNblocks
  batchStartHeight := h'.batchStartHeight.trans h.batchStartHeight

/-- The pool and the cache of long-term weights are the same as well. -/
structure Aside (node node' : Node) : Prop extends SameMain node node' where
  pool : node'.pool = node.pool
  longTermCache : node'.bc.longTermCache = node.bc.longTermCache

theorem Aside.refl (node : Node) : Aside node node := ⟨.refl node, rfl, rfl⟩

theorem Aside.trans {node node' node'' : Node} (h : Aside node node') (h' : Aside node' node'') :
    Aside node node'' :=
  ⟨h.toSameMain.trans h'.toSameMain, h'.pool.trans h.pool,
    h'.longTermCache.trans h.longTermCache⟩

/-- What has been taken from the pool by the time a block is refused. -/
def takenFor (ce : ChainEnv) (bc : Blockchain) (pool : TxPool) (b : Block) : TakenTxs :=
  lastTaken (b.txHashes.foldlM (takeBlockTx ce.toEnv bc)
    { pool, cumulativeWeight := ce.txWeight b.minerTx })

/-- The kinds of moves. -/
inductive Move (ce : ChainEnv) : Node → Node → Prop
  | aside {node node' : Node} (h : Aside node node') : Move ce node node'
  | refuse (node : Node) (b : Block) (refusal : BlockRefusal) :
      Move ce node (node.refuseBlock ce b refusal (takenFor ce node.bc node.pool b))
  | store {node : Node} {b : Block} {diffic : UInt64} {info : BlockInfo} {pool : TxPool}
      (hcheck : node.bc.hardfork.check b = true)
      (htake : takeBlockTxs ce node.bc diffic node.pool b = .ok (info, pool)) :
      Move ce node (node.storeBlock ce info pool)
  | pop {node node' : Node} {b : Block} (h : node.popBlockFromBlockchain ce = some (b, node')) :
      Move ce node node'
  | reorganize (node : Node) (height : ℕ) : Move ce node (node.reorganizeFromChainHeight height)
  | incoming (node : Node) (tx : Transaction) : Move ce node (node.addIncomingTx ce tx)

/-- A sequence of moves. -/
def Moves (ce : ChainEnv) : Node → Node → Prop := ReflTransGen (Move ce)

section Moves

variable {ce : ChainEnv} {node node' : Node} {b : Block} {handleAlt : Node → Block → Option Node}
  {fuel : ℕ} {r : AddResult} {throws : Bool} {more : Blockchain → Bool} {altChain : List AltBlock}
  {discard : Bool}

theorem Moves.one (h : Move ce node node') : Moves ce node node' := ReflTransGen.single h

theorem Moves.trans {node'' : Node} (h : Moves ce node node') (h' : Moves ce node' node'') :
    Moves ce node node'' :=
  ReflTransGen.trans h h'

/-- What every move keeps. -/
theorem Moves.keep {P : Node → Prop} (hstep : ∀ {node node'}, Move ce node node' → P node → P node')
    (h : Moves ce node node') (hP : P node) : P node' := by
  induction h with
  | refl => exact hP
  | tail _ hmove ih => exact hstep hmove ih

theorem aside_query (ce : ChainEnv) (node : Node) : Aside node (node.queried ce) := by
  obtain ⟨cache, hcache⟩ := getDifficultyForNextBlock_snd ce.toEnv ce.fns node.bc
  rw [queried, hcache]
  exact ⟨⟨rfl, rfl, rfl, rfl, rfl, rfl, rfl⟩, rfl, rfl⟩

theorem sameMain_query (ce : ChainEnv) (node : Node) : SameMain node (node.queried ce) :=
  (aside_query ce node).toSameMain

theorem aside_forgetWindow (node : Node) : Aside node node.forgetWindow :=
  ⟨⟨rfl, rfl, rfl, rfl, rfl, rfl, rfl⟩, rfl, rfl⟩

theorem sameMain_refuseBlock (ce : ChainEnv) (node : Node) (b : Block) (refusal : BlockRefusal)
    (t : TakenTxs) : SameMain node (node.refuseBlock ce b refusal t) :=
  ⟨rfl, rfl, rfl, rfl, rfl, rfl, rfl⟩

theorem aside_removeAltBlocks (env : Env) (node : Node) (altChain : List AltBlock) :
    Aside node (node.removeAltBlocks env altChain) := by
  have hdb : ∀ (altChain : List AltBlock) (db : BlockchainDB),
      (altChain.foldl (fun db a => db.removeAltBlock (env.blockHash a.bl)) db).blocks = db.blocks ∧
      (altChain.foldl (fun db a => db.removeAltBlock (env.blockHash a.bl)) db).hfVersions =
        db.hfVersions := by
    intro altChain
    induction altChain with
    | nil => exact fun _ => ⟨rfl, rfl⟩
    | cons a rest ih => exact fun db => ih (db.removeAltBlock (env.blockHash a.bl))
  obtain ⟨hblocks, hversions⟩ := hdb altChain node.bc.db
  exact ⟨⟨hblocks, hversions, rfl, rfl, rfl, rfl, rfl⟩, rfl, rfl⟩

theorem aside_dismiss (env : Env) : ∀ (bs : List Block) (node : Node),
    Aside node (bs.foldl (dismiss env) node)
  | [], node => .refl node
  | b :: bs, node => by
    have hone : Aside node (node.dismiss env b) := ⟨⟨rfl, rfl, rfl, rfl, rfl, rfl, rfl⟩, rfl, rfl⟩
    exact hone.trans (aside_dismiss env bs (node.dismiss env b))

theorem moves_query (ce : ChainEnv) (node : Node) : Moves ce node (node.queried ce) :=
  .one (.aside (aside_query ce node))

/-- A block for the main chain is stored or refused. -/
theorem handleBlockToMainChain_moves (ce : ChainEnv) (node : Node) (b : Block) :
    Moves ce node (node.handleBlockToMainChain ce b).2 ∧
      ((node.handleBlockToMainChain ce b).1 ≠ .ok () →
        SameMain node (node.handleBlockToMainChain ce b).2) := by
  rcases handleBlockToMainChain_cases ce node b with ⟨refusal, heq⟩ | ⟨refusal, heq⟩ |
    ⟨refusal, t, htake, heq⟩ | ⟨info, pool, hlinks, htake, heq⟩
  · rw [heq]
    exact ⟨ReflTransGen.refl, fun _ => .refl node⟩
  · rw [heq]
    exact ⟨moves_query ce node, fun _ => sameMain_query ce node⟩
  · rw [heq]
    have ht : t = takenFor ce _ node.pool b := (takeBlockTxs_error htake).1
    refine ⟨(moves_query ce node).trans ?_, fun _ =>
      (sameMain_query ce node).trans (sameMain_refuseBlock ce _ b refusal t)⟩
    rw [ht]
    exact .one (.refuse _ b refusal)
  · rw [heq]
    refine ⟨(moves_query ce node).trans (.one (.store ?_ htake)), fun hne => absurd rfl hne⟩
    simp only [Blockchain.checkBlockLinks, Checks.bind_eq_ok, Checks.exists_unit,
      Checks.require_eq_ok] at hlinks
    rw [(sameMain_query ce node).hardfork]
    exact hlinks.2.1

theorem handleBlockThrowing_error (ce : ChainEnv) (node : Node) (b : Block) :
    ∃ refusal, (node.handleBlockThrowing ce b).1 = .error refusal := by
  unfold handleBlockThrowing
  split
  · exact ⟨_, rfl⟩
  · simp only []
    split <;> exact ⟨_, rfl⟩

theorem handleBlockThrowing_moves (ce : ChainEnv) (node : Node) (b : Block) :
    Moves ce node (node.handleBlockThrowing ce b).2 ∧
      SameMain node (node.handleBlockThrowing ce b).2 := by
  obtain ⟨hmoves, hsame⟩ := handleBlockToMainChain_moves ce node b
  unfold handleBlockThrowing
  split
  · rename_i heq
    rw [heq] at hmoves hsame
    exact ⟨hmoves, hsame fun hc => by cases hc⟩
  · simp only []
    have hfails : ∀ t, t = takenFor ce (node.queried ce).bc node.pool b →
        Moves ce node ((node.queried ce).refuseBlock ce b .databaseError t) ∧
        SameMain node ((node.queried ce).refuseBlock ce b .databaseError t) := by
      rintro t rfl
      exact ⟨(moves_query ce node).trans (.one (.refuse _ b .databaseError)),
        (sameMain_query ce node).trans (sameMain_refuseBlock ce _ b _ _)⟩
    split
    · rename_i heq
      exact hfails _ (by rw [takenFor, heq]; rfl)
    · rename_i heq
      exact hfails _ (by rw [takenFor, heq]; rfl)

theorem popWhile_moves : ∀ {fuel : ℕ} {node node' : Node}
    {popped popped' : List Block}, node.popWhile ce more fuel popped = some (popped', node') →
    Moves ce node node'
  | 0, _, _, _, _, h => by cases h
  | fuel + 1, node, node', popped, popped', h => by
    rw [popWhile] at h
    split at h
    · obtain ⟨⟨b, node₁⟩, hpop, hrest⟩ := bind_eq_some_iff.mp h
      exact (Moves.one (.pop hpop)).trans (popWhile_moves hrest)
    · cases h
      exact ReflTransGen.refl

theorem popWhile_stop : ∀ {fuel : ℕ} {node node' : Node}
    {popped popped' : List Block}, node.popWhile ce more fuel popped = some (popped', node') →
    more node'.bc = false
  | 0, _, _, _, _, h => by cases h
  | fuel + 1, node, node', popped, popped', h => by
    rw [popWhile] at h
    split at h
    · obtain ⟨⟨b, node₁⟩, -, hrest⟩ := bind_eq_some_iff.mp h
      exact popWhile_stop hrest
    · rename_i hstop
      cases h
      exact Bool.eq_false_iff.mpr hstop

theorem connect_moves (ce : ChainEnv) : ∀ (bs : List Block) (node : Node),
    Moves ce node (node.connect ce bs).2
  | [], _ => ReflTransGen.refl
  | b :: bs, node => by
    have hmoves := (handleBlockToMainChain_moves ce node b).1
    rw [connect]
    split
    · rename_i node₁ heq
      rw [heq] at hmoves
      exact hmoves.trans (connect_moves ce bs node₁)
    · rename_i heq
      rw [heq] at hmoves
      exact hmoves

/-- Rolling back consists of moves. -/
theorem rollbackBlockchainSwitching_moves {originalChain : List Block} {rollbackHeight : ℕ}
    {r : Bool}
    (h : node.rollbackBlockchainSwitching ce originalChain rollbackHeight = some (r, node')) :
    Moves ce node node' := by
  unfold rollbackBlockchainSwitching at h
  split at h
  · cases h
    exact ReflTransGen.refl
  · simp only [map_eq_some_iff, Prod.exists] at h
    obtain ⟨popped, node₁, hpop, h⟩ := h
    have hconnect := (popWhile_moves hpop).trans
      ((Moves.one (.reorganize node₁ rollbackHeight)).trans
      (connect_moves ce originalChain (node₁.reorganizeFromChainHeight rollbackHeight)))
    have hforget : Moves ce node node.forgetWindow := .one (.aside (aside_forgetWindow node))
    split at h
    · cases h
      exact hforget.trans (hconnect.trans (.one (.reorganize _ rollbackHeight)))
    · cases h
      exact hforget.trans hconnect

theorem pushOldChain_moves
    (halt : ∀ {node b node'}, handleAlt node b = some node' → Moves ce node node')
    {splitHeight : ℕ} :
    ∀ {bs : List Block} {node node' : Node},
      node.pushOldChain handleAlt splitHeight bs = some node' → Moves ce node node'
  | [], _, _, h => by
    cases h
    exact ReflTransGen.refl
  | b :: bs, node, node', h => by
    rw [pushOldChain] at h
    split at h
    · cases h
      exact ReflTransGen.refl
    · obtain ⟨node₁, hhandle, hrest⟩ := bind_eq_some_iff.mp h
      exact (halt hhandle).trans (pushOldChain_moves halt hrest)

/-- How a switch goes: it stops at once, succeeds, or is rolled back. -/
theorem switchWith_cases {r : Bool}
    (h : node.switchWith ce handleAlt altChain discard = some (r, node')) :
    node' = node.forgetWindow ∨
    ∃ more fuel popped node₁, node.forgetWindow.popWhile ce more fuel [] = some (popped, node₁) ∧
      ((∃ node₂ node₃, node₁.connect ce (altChain.map (·.bl)) = ([], node₂) ∧
        (node₃ = node₂ ∨ node₂.pushOldChain handleAlt node₁.bc.db.height popped = some node₃) ∧
        node' = (node₃.removeAltBlocks ce.toEnv altChain).reorganizeFromChainHeight
          node₁.bc.db.height) ∨
      ∃ left node₂ node₃, node₁.connect ce (altChain.map (·.bl)) = (left, node₂) ∧
        (∃ r, node₂.rollbackBlockchainSwitching ce popped node₁.bc.db.height = some (r, node₃)) ∧
        node' = left.foldl (dismiss ce.toEnv) node₃) := by
  unfold switchWith at h
  simp only [] at h
  split at h
  · cases h
    exact .inl rfl
  · split at h
    · cases h
      exact .inl rfl
    · obtain ⟨⟨popped, node₁⟩, hpop, h⟩ := bind_eq_some_iff.mp h
      refine .inr ⟨_, _, popped, node₁, hpop, ?_⟩
      split at h
      · rename_i node₂ hconnect
        obtain ⟨node₃, hpush, heq⟩ := map_eq_some_iff.mp h
        cases heq
        refine .inl ⟨node₂, node₃, hconnect, ?_, rfl⟩
        split at hpush
        · exact .inl (some.inj hpush).symm
        · exact .inr hpush
      · rename_i b left node₂ hconnect
        obtain ⟨⟨r, node₃⟩, hrollback, heq⟩ := map_eq_some_iff.mp h
        cases heq
        exact .inr ⟨b :: left, node₂, node₃, hconnect, ⟨r, hrollback⟩, rfl⟩

theorem switchWith_moves
    (halt : ∀ {node b node'}, handleAlt node b = some node' → Moves ce node node') {r : Bool}
    (h : node.switchWith ce handleAlt altChain discard = some (r, node')) :
    Moves ce node node' := by
  have hforget : Moves ce node node.forgetWindow := .one (.aside (aside_forgetWindow node))
  rcases switchWith_cases h with rfl | ⟨more, fuel, popped, node₁, hpop, hend⟩
  · exact hforget
  have hpopped := hforget.trans (popWhile_moves hpop)
  have hconnected := hpopped.trans (connect_moves ce (altChain.map (·.bl)) node₁)
  rcases hend with ⟨node₂, node₃, hconnect, hpush, rfl⟩ |
    ⟨left, node₂, node₃, hconnect, ⟨r, hroll⟩, rfl⟩
  · rw [hconnect] at hconnected
    have hpushed : Moves ce node₂ node₃ := by
      rcases hpush with rfl | hpush
      · exact ReflTransGen.refl
      · exact pushOldChain_moves halt hpush
    refine (hconnected.trans hpushed).trans (Moves.trans ?_ (.one (.reorganize _ _)))
    exact .one (.aside (aside_removeAltBlocks ce.toEnv node₃ altChain))
  · rw [hconnect] at hconnected
    exact (hconnected.trans (rollbackBlockchainSwitching_moves hroll)).trans
      (.one (.aside (aside_dismiss ce.toEnv left node₃)))

/-- An alternative block is put aside, or leads to a switch. -/
theorem handleAlternativeBlock_cases {r : Except AltRefusal AltOutcome}
    (h : node.handleAlternativeBlock ce (fuel + 1) b = some (r, node')) :
    Aside node node' ∨
    ∃ node₁ altChain discard switched, Aside node node₁ ∧
      node₁.switchWith ce (fun node b => (node.handleAlternativeBlock ce fuel b).map (·.2)) altChain
        discard = some (switched, node') ∧
      r = if switched then .ok .addedToMainChain else .error .switchFailed := by
  rw [handleAlternativeBlock] at h
  simp only [] at h
  split at h
  · cases h
    exact .inl (aside_forgetWindow node)
  · cases h
    exact .inl (aside_forgetWindow node)
  · rename_i c hcandidate
    split at h
    · simp only [map_eq_some_iff, Prod.exists] at h
      obtain ⟨switched, node₂, hswitch, heq⟩ := h
      cases heq
      refine .inr ⟨_, _, _, switched, ?_, hswitch, rfl⟩
      exact ⟨⟨rfl, rfl, rfl, rfl, rfl, rfl, rfl⟩, rfl, rfl⟩
    · cases h
      exact .inl ⟨⟨rfl, rfl, rfl, rfl, rfl, rfl, rfl⟩, rfl, rfl⟩

/-- An alternative block leads to moves only, with all the switches it causes. -/
theorem handleAlternativeBlock_moves : ∀ {fuel : ℕ} {node node' : Node} {b : Block}
    {r : Except AltRefusal AltOutcome}, node.handleAlternativeBlock ce fuel b = some (r, node') →
    Moves ce node node'
  | 0, _, _, _, _, h => by cases h
  | fuel + 1, node, node', b, r, h => by
    rcases handleAlternativeBlock_cases h with haside |
      ⟨node₁, altChain, discard, switched, haside, hswitch, -⟩
    · exact .one (.aside haside)
    · refine (Moves.one (.aside haside)).trans (switchWith_moves ?_ hswitch)
      intro node b node' hhandle
      obtain ⟨⟨r, node₂⟩, hinner, rfl⟩ := map_eq_some_iff.mp hhandle
      exact handleAlternativeBlock_moves hinner

section

variable (h : node.addNewBlock ce fuel b throws = some (r, node'))

include h

/-- What becomes of a new block. -/
theorem addNewBlock_cases :
    (r.quiet = true ∧ SameMain node node' ∧ Moves ce node node') ∨
    (node' = (node.handleBlockToMainChain ce b).2 ∧ r = .mainChain (.ok ()) ∧
      (node.handleBlockToMainChain ce b).1 = .ok ()) ∨
    ∃ r', node.handleAlternativeBlock ce fuel b = some (r', node') ∧ r = .alternative r' := by
  unfold addNewBlock at h
  split at h
  · cases h
    exact .inl ⟨rfl, .refl node, ReflTransGen.refl⟩
  · split at h
    · obtain ⟨⟨r', node₁⟩, hhandle, heq⟩ := map_eq_some_iff.mp h
      cases heq
      exact .inr (.inr ⟨r', hhandle, rfl⟩)
    · obtain ⟨rfl, rfl⟩ := Prod.mk.inj (some.inj h)
      cases throws with
      | true =>
        obtain ⟨hmoves, hmain⟩ := handleBlockThrowing_moves ce node b
        obtain ⟨refusal, hr⟩ := handleBlockThrowing_error ce node b
        rw [if_pos rfl, hr]
        exact .inl ⟨rfl, hmain, hmoves⟩
      | false =>
        obtain ⟨hmoves, hmain⟩ := handleBlockToMainChain_moves ce node b
        rw [if_neg Bool.false_ne_true]
        cases hr : (node.handleBlockToMainChain ce b).1 with
        | ok _ => exact .inr (.inl ⟨rfl, rfl, rfl⟩)
        | error refusal =>
          rw [hr] at hmain
          have hne : (Except.error refusal : Except BlockRefusal Unit) ≠ .ok () := nofun
          exact .inl ⟨rfl, hmain hne, hmoves⟩

theorem addNewBlock_moves : Moves ce node node' := by
  rcases addNewBlock_cases h with ⟨-, -, hmoves⟩ | ⟨rfl, -, -⟩ | ⟨r', hhandle, -⟩
  · exact hmoves
  · exact (handleBlockToMainChain_moves ce node b).1
  · exact handleAlternativeBlock_moves hhandle

/-- A result that is quiet means that the main chain is the same. -/
theorem addNewBlock_quiet (hquiet : r.quiet = true) : SameMain node node' := by
  rcases addNewBlock_cases h with ⟨-, hmain, -⟩ | ⟨-, rfl, -⟩ | ⟨r', hhandle, rfl⟩
  · exact hmain
  · cases hquiet
  · cases fuel with
    | zero => cases hhandle
    | succ fuel =>
      rcases handleAlternativeBlock_cases hhandle with haside | ⟨-, -, -, switched, -, -, rfl⟩
      · exact haside.toSameMain
      · cases switched <;> cases hquiet

end

theorem addIncomingTx_sameMain (ce : ChainEnv) (node : Node) (tx : Transaction) :
    SameMain node (node.addIncomingTx ce tx) := by
  unfold addIncomingTx
  simp only []
  split <;> exact ⟨rfl, rfl, rfl, rfl, rfl, rfl, rfl⟩

theorem foldl_addIncomingTx_sameMain (ce : ChainEnv) : ∀ (txs : List Transaction) (node : Node),
    SameMain node (txs.foldl (addIncomingTx ce) node) ∧
      Moves ce node (txs.foldl (addIncomingTx ce) node)
  | [], node => ⟨.refl node, ReflTransGen.refl⟩
  | tx :: txs, node => by
    obtain ⟨hmain, hmoves⟩ := foldl_addIncomingTx_sameMain ce txs (node.addIncomingTx ce tx)
    exact ⟨(addIncomingTx_sameMain ce node tx).trans hmain,
      (Moves.one (.incoming node tx)).trans hmoves⟩

theorem handleEntry_moves {entry : BatchEntry}
    (h : node.handleEntry ce fuel entry = some (r, node')) :
    Moves ce node node' ∧ (r.quiet = true → SameMain node node') := by
  obtain ⟨hmain, hmoves⟩ := foldl_addIncomingTx_sameMain ce entry.txs node
  exact ⟨hmoves.trans (addNewBlock_moves h), fun hquiet => hmain.trans (addNewBlock_quiet h hquiet)⟩

/-- Handling a batch consists of moves. -/
theorem handleEntries_moves : ∀ {entries : List BatchEntry} {node node' : Node}
    {rs : List AddResult}, node.handleEntries ce fuel entries = some (rs, node') →
    Moves ce node node' ∧ ((∀ r ∈ rs, r.quiet = true) → SameMain node node')
  | [], _, _, _, h => by
    cases h
    exact ⟨ReflTransGen.refl, fun _ => .refl _⟩
  | entry :: entries, node, node', rs, h => by
    obtain ⟨⟨r, node₁⟩, hentry, h⟩ := bind_eq_some_iff.mp h
    obtain ⟨⟨rs₁, node₂⟩, hrest, heq⟩ := map_eq_some_iff.mp h
    cases heq
    obtain ⟨hmoves, hmain⟩ := handleEntry_moves hentry
    obtain ⟨hmoves', hmain'⟩ := handleEntries_moves hrest
    refine ⟨hmoves.trans hmoves', fun hquiet => ?_⟩
    exact (hmain (hquiet r List.mem_cons_self)).trans
      (hmain' fun r' hr' => hquiet r' (List.mem_cons_of_mem r hr'))

end Moves

end Nerva
