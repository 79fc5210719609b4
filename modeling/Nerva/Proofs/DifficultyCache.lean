import Nerva.Chain
import Nerva.Proofs.AltDifficulty

/-!
# The difficulty cache is transparent

The cached difficulty is keyed by the hash of the block it follows, and a block's hash fixes the
whole chain below it; the cached window is dropped by every pop, so that whatever is left of it is
a window of an initial part of the current chain.
-/

namespace Nerva

open List BlockInfo BlockchainDB

/-- The difficulty asked for on top of `blocks`, as a function of the blocks. -/
def chainDifficulty (fns : DifficultyFns) (fixed : UInt64) (t : ForkTable)
    (blocks : List BlockInfo) : UInt64 :=
  if fixed ≠ 0 then (if blocks.length ≠ 0 then fixed else 1)
  else
    let version := t.versionAt blocks.length
    let window := scratchWindow { blocks } (blocksCountFor version)
    fns.next version (window.map (·.bl.timestamp)) (window.map (·.cumulativeDifficulty))

/-- Hashes are collision free and never null on the blocks of `S`. -/
structure HashSound (env : Env) (S : Set Block) : Prop where
  injOn : Set.InjOn env.blockHash S
  ne_null : ∀ b ∈ S, env.blockHash b ≠ nullHash

/-- Chains on top of `genesis` with blocks of `S`, each with the cumulative difficulty the chain
below it asks for. -/
inductive GoodChain (env : Env) (fns : DifficultyFns) (fixed : UInt64) (t : ForkTable)
    (genesis : BlockInfo) (S : Set Block) : List BlockInfo → Prop
  | genesis (hS : genesis.bl ∈ S) (hprev : genesis.bl.prevId = nullHash) :
    GoodChain env fns fixed t genesis S [genesis]
  | snoc {blocks : List BlockInfo} {last info : BlockInfo}
    (h : GoodChain env fns fixed t genesis S (blocks ++ [last])) (hS : info.bl ∈ S)
    (hprev : info.bl.prevId = env.blockHash last.bl)
    (hwork : info.cumulativeDifficulty =
      last.cumulativeDifficulty + (chainDifficulty fns fixed t (blocks ++ [last])).toNat) :
    GoodChain env fns fixed t genesis S (blocks ++ [last] ++ [info])

section Chains

variable {env : Env} {fns : DifficultyFns} {fixed : UInt64} {t : ForkTable} {genesis : BlockInfo}
  {S : Set Block} {C : List BlockInfo} {D : List BlockInfo}

theorem GoodChain.exists_snoc (h : GoodChain env fns fixed t genesis S C) :
    ∃ blocks last, C = blocks ++ [last] ∧ last.bl ∈ S := by
  cases h with
  | genesis hS => exact ⟨[], genesis, rfl, hS⟩
  | snoc h hS => exact ⟨_, _, rfl, hS⟩

theorem chainDifficulty_congr (h : C.map work = D.map work) :
    chainDifficulty fns fixed t C = chainDifficulty fns fixed t D := by
  have hlen : C.length = D.length := by simpa using congrArg length h
  have hwindow : ∀ count, (scratchWindow { blocks := C } count).map work =
      (scratchWindow { blocks := D } count).map work := by
    intro count
    simp only [scratchWindow, BlockchainDB.range, height, map_drop,
      map_take, h, hlen]
  have hts : ∀ count, (scratchWindow { blocks := C } count).map (·.bl.timestamp) =
      (scratchWindow { blocks := D } count).map (·.bl.timestamp) := by
    intro count
    have := congrArg (map Prod.fst) (hwindow count)
    rwa [map_map, map_map] at this
  have hds : ∀ count, (scratchWindow { blocks := C } count).map (·.cumulativeDifficulty) =
      (scratchWindow { blocks := D } count).map (·.cumulativeDifficulty) := by
    intro count
    have := congrArg (map Prod.snd) (hwindow count)
    rwa [map_map, map_map] at this
  simp only [chainDifficulty, hlen, hts, hds]

/-- The hash of the last block. -/
def tipHash (env : Env) (blocks : List BlockInfo) : Option Hash :=
  blocks.getLast?.map fun b => env.blockHash b.bl

theorem tipHash_snoc (blocks : List BlockInfo) (b : BlockInfo) :
    tipHash env (blocks ++ [b]) = some (env.blockHash b.bl) := by
  simp [tipHash]

theorem GoodChain.genesis_ne (hs : HashSound env S) {blocks : List BlockInfo}
    {last info : BlockInfo} (h : GoodChain env fns fixed t genesis S (blocks ++ [last]))
    (hprev : info.bl.prevId = env.blockHash last.bl) (hnull : genesis.bl.prevId = nullHash) :
    genesis.bl ≠ info.bl := by
  intro heq
  obtain ⟨blocks', last', hsnoc, hS⟩ := h.exists_snoc
  obtain ⟨-, rfl⟩ := append_singleton_inj.mp hsnoc
  exact hs.ne_null _ hS (by rw [← hprev, ← heq, hnull])

def BlockInfo.core (b : BlockInfo) : Block × ℕ := (b.bl, b.cumulativeDifficulty)

theorem map_work_of_map_core (h : C.map core = D.map core) : C.map work = D.map work := by
  have := congrArg (map fun x : Block × ℕ => (x.1.timestamp, x.2)) h
  rwa [map_map, map_map] at this

/-- Chains with the same tip have the same blocks and difficulties. -/
theorem GoodChain.core_eq (hs : HashSound env S) (hC : GoodChain env fns fixed t genesis S C) :
    ∀ {D : List BlockInfo}, GoodChain env fns fixed t genesis S D →
      tipHash env C = tipHash env D → C.map core = D.map core := by
  induction hC with
  | genesis hS hnull =>
    intro D hD htip
    cases hD with
    | genesis => rfl
    | snoc hD hS' hprev =>
      rw [tipHash_snoc] at htip
      have heq := hs.injOn hS hS' (Option.some.inj htip)
      exact absurd heq (hD.genesis_ne hs hprev hnull)
  | snoc hC hS hprev hwork ih =>
    intro D hD htip
    cases hD with
    | genesis hS' hnull =>
      rw [tipHash_snoc] at htip
      have heq := hs.injOn hS hS' (Option.some.inj htip)
      exact absurd heq.symm (hC.genesis_ne hs hprev hnull)
    | snoc hD hS' hprev' hwork' =>
      rw [tipHash_snoc, tipHash_snoc] at htip
      have heq := hs.injOn hS hS' (Option.some.inj htip)
      have hbelow := ih hD (by rw [tipHash_snoc, tipHash_snoc, ← hprev, ← hprev', heq])
      have hdiff : chainDifficulty fns fixed t _ = chainDifficulty fns fixed t _ :=
        chainDifficulty_congr (map_work_of_map_core hbelow)
      have hlast := hbelow
      rw [map_append, map_append] at hlast
      obtain ⟨-, hlast⟩ := append_singleton_inj.mp hlast
      have hcum := congrArg Prod.snd hlast
      simp only [core] at hcum
      rw [map_append, hbelow]
      conv_rhs => rw [map_append]
      simp only [map_singleton, core, heq, hwork, hwork', hcum, hdiff]

end Chains

/-- The invariant of the difficulty cache. -/
structure CacheInv (env : Env) (fns : DifficultyFns) (fixed : UInt64) (t : ForkTable)
    (genesis : BlockInfo) (S : Set Block) (bc : Blockchain) : Prop where
  good : GoodChain env fns fixed t genesis S bc.db.blocks
  heights : bc.hardfork.heights = t
  sync : bc.hardfork.InSync bc.db.height
  fixed_eq : bc.fixedDifficulty = fixed
  window : bc.difficultyCache.timestampsAndDifficultiesHeight ≠ 0 →
    bc.difficultyCache.timestampsAndDifficultiesHeight ≤ bc.db.height ∧
    ∃ start, 1 ≤ start ∧ start ≤ bc.difficultyCache.timestampsAndDifficultiesHeight ∧
      bc.difficultyCache.timestamps = (bc.db.range start
        bc.difficultyCache.timestampsAndDifficultiesHeight).map (·.bl.timestamp) ∧
      bc.difficultyCache.difficulties = (bc.db.range start
        bc.difficultyCache.timestampsAndDifficultiesHeight).map (·.cumulativeDifficulty)
  value : ∀ C, GoodChain env fns fixed t genesis S C →
    tipHash env C = some bc.difficultyCache.difficultyForNextBlockTopHash →
    chainDifficulty fns fixed t C = bc.difficultyCache.difficultyForNextBlock

section Inv

variable {env : Env} {fns : DifficultyFns} {fixed : UInt64} {t : ForkTable} {genesis : BlockInfo}
  {S : Set Block} {bc : Blockchain} {a b : ℕ} {count height : ℕ} {info : BlockInfo}

theorem CacheInv.tipHash (h : CacheInv env fns fixed t genesis S bc) :
    tipHash env bc.db.blocks = some (bc.db.topBlockHash env) := by
  obtain ⟨blocks, last, hsnoc, -⟩ := h.good.exists_snoc
  rw [hsnoc, tipHash_snoc, topBlockHash, hsnoc]
  simp

theorem CacheInv.scratch (h : CacheInv env fns fixed t genesis S bc) :
    scratchDifficulty fns bc = chainDifficulty fns fixed t bc.db.blocks := by
  have hv : bc.getCurrentHardForkVersion = t.versionAt bc.db.blocks.length := by
    rw [Blockchain.getCurrentHardForkVersion, h.sync.version, h.heights]
    rfl
  simp only [scratchDifficulty, hv, h.fixed_eq]
  rfl

theorem length_range (db : BlockchainDB) (hb : b ≤ db.height) : (db.range a b).length = b - a := by
  rw [BlockchainDB.range, length_drop, length_take]
  simp only [height] at hb
  omega

theorem range_append_range (db : BlockchainDB) {c : ℕ} (hab : a ≤ b) (hbc : b ≤ c)
    (hc : c ≤ db.height) : db.range a b ++ db.range b c = db.range a c := by
  have hlen : a ≤ ((db.blocks.take c).take b).length := by
    rw [length_take, length_take]
    simp only [height] at hc
    omega
  have htake : db.blocks.take b = (db.blocks.take c).take b := by
    rw [take_take, Nat.min_eq_left hbc]
  rw [BlockchainDB.range, BlockchainDB.range, BlockchainDB.range, htake,
    ← drop_append_of_le_length hlen, take_append_drop]

theorem windowStart_of_lt_height (h : count < height) :
    windowStart count height = height - count := by
  rw [windowStart_eq]
  omega

theorem one_le_windowStart (count height : ℕ) : 1 ≤ windowStart count height := by
  rw [windowStart_eq]
  omega

theorem windowStart_le (h : 1 ≤ height) : windowStart count height ≤ height := by
  rw [windowStart_eq]
  omega

/-- A refreshed window is the one read from the database. -/
theorem CacheInv.refreshWindow_eq (h : CacheInv env fns fixed t genesis S bc) (count : ℕ) :
    refreshWindow env bc.db count bc.difficultyCache =
      { bc.difficultyCache with
        timestamps := (scratchWindow bc.db count).map (·.bl.timestamp)
        difficulties := (scratchWindow bc.db count).map (·.cumulativeDifficulty)
        timestampsAndDifficultiesHeight := bc.db.height
        timestampsAndDifficultiesTopHash := bc.db.topBlockHash env } := by
  unfold refreshWindow
  simp only []
  split
  · rename_i hext
    obtain ⟨hne, hheight, hcount, -⟩ := hext
    obtain ⟨-, start, hstart, hle, hts, hds⟩ := h.window hne
    have hprev : bc.difficultyCache.timestampsAndDifficultiesHeight = bc.db.height - 1 := by omega
    rw [hprev] at hts hds hle
    rw [hts, length_map, length_range _ (Nat.sub_le _ _)] at hcount
    have hjoin : bc.db.range start (bc.db.height - 1) ++
        bc.db.range (bc.db.height - 1) bc.db.height = bc.db.range start bc.db.height :=
      range_append_range _ hle (Nat.sub_le _ _) le_rfl
    have hlen : (bc.db.range start bc.db.height).length - count = bc.db.height - start - count := by
      rw [length_range _ le_rfl]
    have hdrop : (bc.db.range start bc.db.height).drop (bc.db.height - start - count) =
        scratchWindow bc.db count := by
      rw [BlockchainDB.range, drop_drop, scratchWindow, windowStart_of_lt_height (by omega)]
      congr 1
      omega
    rw [hts, hds, ← map_append, ← map_append, hjoin, length_map, length_map,
      hlen, ← map_drop, ← map_drop, hdrop]
  · rfl

/-- A query answers as from scratch and keeps the invariant. -/
theorem CacheInv.query (hs : HashSound env S) (h : CacheInv env fns fixed t genesis S bc) :
    (getDifficultyForNextBlock env fns bc).1 = scratchDifficulty fns bc ∧
      CacheInv env fns fixed t genesis S (getDifficultyForNextBlock env fns bc).2 := by
  have hpos : 1 ≤ bc.db.height := by
    obtain ⟨blocks, last, hsnoc, -⟩ := h.good.exists_snoc
    rw [height, hsnoc, length_append]
    exact Nat.le_add_left _ _
  unfold getDifficultyForNextBlock
  simp only []
  split
  · rename_i hfixed
    refine ⟨?_, h⟩
    rw [scratchDifficulty, if_pos hfixed]
  · rename_i hfixed
    split
    · rename_i htop
      refine ⟨?_, h⟩
      rw [h.scratch]
      exact (h.value _ h.good (by rw [h.tipHash, htop])).symm
    · rw [h.refreshWindow_eq]
      have hdiff : scratchDifficulty fns bc = _ := if_neg hfixed
      refine ⟨hdiff.symm, ?_⟩
      refine ⟨h.good, h.heights, h.sync, h.fixed_eq, fun _ => ⟨le_rfl, _,
        one_le_windowStart _ _, windowStart_le hpos, rfl, rfl⟩, fun C hC htip => ?_⟩
      -- the same top hash means the same work, so the same difficulty
      have hwork := map_work_of_map_core (hC.core_eq hs h.good (htip.trans h.tipHash.symm))
      rw [chainDifficulty_congr hwork, ← h.scratch, hdiff]

@[simp] theorem addBlock_blocks (bc : Blockchain) (info : BlockInfo) :
    (bc.addBlock info).db.blocks = bc.db.blocks ++ [info] := by
  simp only [Blockchain.addBlock, HardFork.add]
  split <;> rfl

@[simp] theorem addBlock_heights (bc : Blockchain) (info : BlockInfo) :
    (bc.addBlock info).hardfork.heights = bc.hardfork.heights := by
  simp only [Blockchain.addBlock, HardFork.add]
  split <;> rfl

theorem range_append_left {db db' : BlockchainDB} (hdb : db'.blocks = db.blocks ++ [info])
    (hb : b ≤ db.height) : db'.range a b = db.range a b := by
  rw [BlockchainDB.range, BlockchainDB.range, hdb, take_append_of_le_length hb]

/-- Adding a block keeps the invariant. -/
theorem CacheInv.add (hs : HashSound env S) (hz : t.NoVoting)
    (h : CacheInv env fns fixed t genesis S bc) (hadd : AddOk env fns bc info) (hS : info.bl ∈ S) :
    CacheInv env fns fixed t genesis S (bc.addBlock info) := by
  have hlen : (bc.addBlock info).db.height = bc.db.height + 1 := by
    simp [height]
  refine ⟨?_, ?_, ?_, h.fixed_eq, fun hne => ?_, h.value⟩
  · obtain ⟨blocks, last, hsnoc, -⟩ := h.good.exists_snoc
    have hgood := h.good
    have hwork := hadd.work
    have hprev := hadd.prev
    rw [(h.query hs).1, h.scratch] at hwork
    rw [addBlock_blocks]
    rw [topBlockHash] at hprev
    rw [hsnoc] at hgood hwork hprev ⊢
    simp only [getLast?_append] at hwork hprev
    exact .snoc hgood hS hprev hwork
  · rw [addBlock_heights]
    exact h.heights
  · rw [hlen]
    exact HardFork.add_inSync (h.heights ▸ hz) h.sync hadd.version
  · obtain ⟨hle, start, hstart, hstart', hts, hds⟩ := h.window hne
    have hrange := range_append_left (a := start) (addBlock_blocks bc info) hle
    refine ⟨by rw [hlen]; exact Nat.le_succ_of_le hle, start, hstart, hstart', ?_, ?_⟩
    · exact hts.trans (by rw [← hrange]; rfl)
    · exact hds.trans (by rw [← hrange]; rfl)

theorem CacheInv.forgetWindow (h : CacheInv env fns fixed t genesis S bc) :
    CacheInv env fns fixed t genesis S bc.forgetWindow :=
  ⟨h.good, h.heights, h.sync, h.fixed_eq, fun hne => absurd rfl hne, h.value⟩

theorem GoodChain.dropLast {C : List BlockInfo} (h : GoodChain env fns fixed t genesis S C)
    (hlen : 1 < C.length) : GoodChain env fns fixed t genesis S C.dropLast := by
  cases h with
  | genesis => exact absurd hlen (Nat.lt_irrefl _)
  | snoc h => rwa [dropLast_concat]

/-- Popping a block keeps the invariant. -/
theorem CacheInv.pop (h : CacheInv env fns fixed t genesis S bc) :
    CacheInv env fns fixed t genesis S bc.popBlock := by
  unfold Blockchain.popBlock
  split
  · rename_i hlen
    exact ⟨h.good.dropLast hlen, h.heights, HardFork.onBlockPopped_inSync _ _, h.fixed_eq,
      fun hne => absurd rfl hne, h.value⟩
  · exact h.forgetWindow

theorem CacheInv.step (hs : HashSound env S) (hz : t.NoVoting)
    (h : CacheInv env fns fixed t genesis S bc) {op : ChainOp} {ops : List ChainOp}
    (hrun : RunOk env fns bc (op :: ops)) (hS : ∀ info, op = .add info → info.bl ∈ S) :
    CacheInv env fns fixed t genesis S (applyOp env fns bc op) ∧
      RunOk env fns (applyOp env fns bc op) ops := by
  cases op with
  | add info => exact ⟨h.add hs hz hrun.1 (hS info rfl), hrun.2⟩
  | pop => exact ⟨h.pop, hrun⟩
  | query => exact ⟨(h.query hs).2, hrun⟩

/-- Every run keeps the invariant. -/
theorem CacheInv.run (hs : HashSound env S) (hz : t.NoVoting) : ∀ (ops : List ChainOp)
    {bc : Blockchain}, CacheInv env fns fixed t genesis S bc → RunOk env fns bc ops →
    (∀ info, .add info ∈ ops → info.bl ∈ S) →
    CacheInv env fns fixed t genesis S (runOps env fns bc ops)
  | [], _, h, _, _ => h
  | op :: ops, _, h, hrun, hS => by
    obtain ⟨hstep, hrest⟩ := h.step hs hz hrun fun info hop => hS info (hop ▸ mem_cons_self)
    exact CacheInv.run hs hz ops hstep hrest fun info hmem => hS info (mem_cons_of_mem _ hmem)

theorem CacheInv.start (hs : HashSound env S)
    (hgood : GoodChain env fns bc.fixedDifficulty bc.hardfork.heights genesis S bc.db.blocks)
    (hsync : bc.hardfork.InSync bc.db.height) (hcold : bc.difficultyCache = {}) :
    CacheInv env fns bc.fixedDifficulty bc.hardfork.heights genesis S bc := by
  refine ⟨hgood, rfl, hsync, rfl, fun hne => ?_, fun C hC htip => ?_⟩
  · rw [hcold] at hne
    exact absurd rfl hne
  · obtain ⟨blocks, last, rfl, hS⟩ := hC.exists_snoc
    rw [tipHash_snoc, hcold] at htip
    exact absurd (Option.some.inj htip) (hs.ne_null _ hS)

end Inv

/-- After any sequence of additions, pops and queries, a query returns the difficulty computed from
the database. -/
theorem difficulty_query_eq_scratch (env : Env) (fns : DifficultyFns) (S : Set Block)
    (hs : HashSound env S) (genesis : BlockInfo) (bc : Blockchain)
    (hz : bc.hardfork.heights.NoVoting)
    (hgood : GoodChain env fns bc.fixedDifficulty bc.hardfork.heights genesis S bc.db.blocks)
    (hsync : bc.hardfork.InSync bc.db.height) (hcold : bc.difficultyCache = {})
    (ops : List ChainOp) (hrun : RunOk env fns bc ops)
    (hS : ∀ info, .add info ∈ ops → info.bl ∈ S) :
    (getDifficultyForNextBlock env fns (runOps env fns bc ops)).1 =
      scratchDifficulty fns (runOps env fns bc ops) :=
  (((CacheInv.start hs hgood hsync hcold).run hs hz ops hrun hS).query hs).1

def numberedBlock (version : ℕ) (timestamp : UInt64) (prevId : Hash) (nonce : ℕ) : Block :=
  { (timedBlock timestamp 0).bl with
    majorVersion := version, minorVersion := version, prevId, nonce }

def nonceEnv : Env := { hashOneEnv with blockHash := fun b => b.nonce + 1 }

def numberedBlocks : List Block :=
  [numberedBlock 1 0 0 0, numberedBlock 1 1000 1 1, numberedBlock 2 1030 2 2,
    numberedBlock 3 1060 3 3, numberedBlock 2 1090 2 4]

def numberedInfo (n : ℕ) (cumulativeDifficulty : ℕ) : BlockInfo :=
  { timedBlock 0 cumulativeDifficulty with bl := numberedBlocks.getD n (numberedBlock 1 0 0 0) }

def genesisChain : Blockchain where
  db := { blocks := [numberedInfo 0 1] }
  hardfork := { heights := ForkTable.mainnet, currentForkIndex := ForkTable.mainnet.indexAt 1 }

def acrossForks : List ChainOp :=
  [.query, .add (numberedInfo 1 2), .query, .add (numberedInfo 2 3), .add (numberedInfo 3 4),
    .query,
    .pop, .pop, .query, .add (numberedInfo 4 3), .query]

theorem numberedBlocks_hashSound : HashSound nonceEnv {b | b ∈ numberedBlocks} where
  injOn := by
    have h : ∀ a ∈ numberedBlocks, ∀ b ∈ numberedBlocks,
      nonceEnv.blockHash a = nonceEnv.blockHash b → a = b := by decide
    exact fun a ha b hb => h a ha b hb
  ne_null := fun b _ => Nat.succ_ne_zero b.nonce

theorem acrossForks_runOk : RunOk nonceEnv (sourceFns fun _ _ _ => 1) genesisChain acrossForks :=
  ⟨⟨by decide, by decide, by decide⟩,
    ⟨by decide, by decide, by decide⟩,
    ⟨by decide, by decide, by decide⟩,
    ⟨by decide, by decide, by decide⟩, trivial⟩

theorem difficulty_query_eq_scratch_acrossForks :
    RunOk nonceEnv (sourceFns fun _ _ _ => 1) genesisChain acrossForks ∧
    (getDifficultyForNextBlock nonceEnv (sourceFns fun _ _ _ => 1)
      (runOps nonceEnv (sourceFns fun _ _ _ => 1) genesisChain acrossForks)).1 =
    scratchDifficulty (sourceFns fun _ _ _ => 1)
      (runOps nonceEnv (sourceFns fun _ _ _ => 1) genesisChain acrossForks) :=
  ⟨acrossForks_runOk,
    difficulty_query_eq_scratch _ _ {b | b ∈ numberedBlocks} numberedBlocks_hashSound
      (numberedInfo 0 1) genesisChain (by unfold ForkTable.NoVoting; decide)
      (.genesis (by decide) rfl) rfl rfl acrossForks acrossForks_runOk
      fun info hmem => by
        simp only [acrossForks, mem_cons, ChainOp.add.injEq, reduceCtorEq, false_or, or_false,
          not_mem_nil] at hmem
        rcases hmem with rfl | rfl | rfl | rfl <;> decide⟩

end Nerva
