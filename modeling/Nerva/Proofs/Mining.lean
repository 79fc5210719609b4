import Nerva.Proofs.Template

/-!
# When a template can be mined

The timestamp of a template is the time on the clock when the rule accepts it, and otherwise the
median of the last blocks, which the rule may refuse as well. With a limit that is up to date, the
timestamp and the two medians of the reward are all that a mined template can fail on.
-/

namespace Nerva

open List

variable (bc : Blockchain)

/-- The highest timestamp of the window. -/
def Blockchain.newestTimestamp : UInt64 :=
  (sortTimestamps bc.windowTimestamps).getLast?.getD 0

/-- Not below the median of the last blocks, nor, from version 6 on, more than 300 seconds below
the newest of them. -/
def Blockchain.NotTooOld (timestamp : UInt64) : Prop :=
  bc.db.height < timestampCheckWindow bc.getCurrentHardForkVersion ∨
    (median bc.windowTimestamps ≤ timestamp ∧
      (bc.getCurrentHardForkVersion ≤ 5 ∨ bc.newestTimestamp - futureTimeLimitV6 ≤ timestamp))

/-- The timestamp is not beyond the clock by more than the limit. -/
def Blockchain.NotTooNew (now timestamp : UInt64) : Prop :=
  timestamp ≤ now + futureTimeLimit bc.getCurrentHardForkVersion

/-- The timestamp a template gets passes the rule. A cached template keeps its own, unless the clock
has passed it; a new one gets the time on the clock, or else the median. -/
def TemplateTimeOk (now : UInt64) : Option UInt64 → Prop
  | some cached =>
    bc.NotTooNew now (if cached < now then now else cached) ∧
      bc.NotTooOld (if cached < now then now else cached)
  | none =>
    bc.NotTooOld now ∨
      (bc.NotTooOld (median bc.windowTimestamps) ∧ bc.NotTooNew now (median bc.windowTimestamps))

section Time

variable {me : MinerEnv} {env : Env} {bc : Blockchain} {node : Node}
  {address : AccountPublicAddress} {exNonce : Blob} {t : BlockTemplate}

/-- The two bounds of a timestamp. -/
theorem checkBlockTimestamp_iff (env : Env) (bc : Blockchain) (b : Block) :
    bc.checkBlockTimestamp env b = true ↔
      bc.NotTooNew env.now b.timestamp ∧ bc.NotTooOld b.timestamp := by
  unfold Blockchain.checkBlockTimestamp Blockchain.NotTooNew Blockchain.NotTooOld
  by_cases hnew : env.now + futureTimeLimit bc.getCurrentHardForkVersion < b.timestamp
  · simp [hnew]
  · by_cases hshort : bc.db.height < timestampCheckWindow bc.getCurrentHardForkVersion
    · simp [hshort]
    · rw [if_neg hnew, if_neg hshort]
      have hne : sortTimestamps bc.windowTimestamps ≠ [] := by
        have hpos : 0 < timestampCheckWindow bc.getCurrentHardForkVersion := by
          unfold timestampCheckWindow
          split_ifs <;> omega
        have hlen : (sortTimestamps bc.windowTimestamps).length =
            timestampCheckWindow bc.getCurrentHardForkVersion := by
          simp only [sortTimestamps, Blockchain.windowTimestamps, BlockchainDB.range,
            length_insertionSort, length_map, length_drop, length_take]
          simp only [BlockchainDB.height] at hshort ⊢
          omega
        exact ne_nil_of_length_pos (by omega)
      have hlast : (sortTimestamps bc.windowTimestamps).getLast?.getD b.timestamp =
          bc.newestTimestamp := by
        unfold Blockchain.newestTimestamp
        rw [getLast?_eq_some_getLast hne]
        rfl
      change checkTimestamps bc.getCurrentHardForkVersion bc.windowTimestamps b = true ↔ _
      unfold checkTimestamps
      simp only [hlast]
      by_cases hold : 5 < bc.getCurrentHardForkVersion ∧
          b.timestamp < bc.newestTimestamp - futureTimeLimitV6
      · simp [hold, hshort]
      · have hold' : bc.getCurrentHardForkVersion ≤ 5 ∨
            bc.newestTimestamp - futureTimeLimitV6 ≤ b.timestamp := by
          rcases not_and_or.mp hold with h | h
          · exact .inl (not_lt.mp h)
          · exact .inr (UInt64.not_lt.mp h)
        simp [hshort, hold', UInt64.not_lt.mp hnew]

/-- When a new template's timestamp passes. -/
theorem templateTimestamp_iff (hclock : env.now ≤ env.now +
    futureTimeLimit bc.getCurrentHardForkVersion) {b : Block}
    (h : b.timestamp = bc.templateTimestamp env) :
    bc.checkBlockTimestamp env b = true ↔ TemplateTimeOk bc env.now none := by
  have hnow : bc.checkBlockTimestamp env (bc.templateHeader env env.now) = true ↔
      bc.NotTooNew env.now env.now ∧ bc.NotTooOld env.now := checkBlockTimestamp_iff env bc _
  rw [checkBlockTimestamp_iff, h]
  unfold Blockchain.templateTimestamp TemplateTimeOk
  by_cases hold : bc.NotTooOld env.now
  · rw [if_pos (hnow.mpr ⟨hclock, hold⟩)]
    exact iff_of_true ⟨hclock, hold⟩ (.inl hold)
  · have hcheck : ¬bc.checkBlockTimestamp env (bc.templateHeader env env.now) = true :=
      fun hc => hold (hnow.mp hc).2
    rw [if_neg hcheck, or_iff_right hold]
    exact and_comm

/-- When a template's timestamp passes, new or from the cache. -/
theorem createBlockTemplate_timestamp_iff (hclock : me.now ≤ me.now +
    futureTimeLimit node.bc.getCurrentHardForkVersion)
    (hpool : PoolValid me.toEnv node.bc node.pool)
    (h : (node.createBlockTemplate me address exNonce).1 = some t) :
    node.bc.checkBlockTimestamp me.toEnv t.block = true ↔ TemplateTimeOk node.bc me.now
      ((node.cachedTemplate me address exNonce).map (·.template.block.timestamp)) := by
  unfold Node.createBlockTemplate at h
  cases hc : node.cachedTemplate me address exNonce with
  | some c =>
    simp only [hc, Option.some.injEq] at h
    subst h
    exact checkBlockTimestamp_iff me.toEnv node.bc _
  | none =>
    simp only [hc] at h
    obtain ⟨-, -, -, htime⟩ := buildTemplate_some h hpool
    exact templateTimestamp_iff hclock htime

end Time

/-- A template of this chain at this time can be mined: the node that made it accepts it. `cached`
is the timestamp of the template that an earlier call has left for the same miner and pool, if any.
-/
def TemplatesMine (now : UInt64) (cached : Option UInt64) : Prop :=
  ∀ (me : MinerEnv) (node : Node) (address : AccountPublicAddress) (exNonce : Blob)
    (t : BlockTemplate) (b : Block),
    me.now = now → node.bc = bc → PoolValid me.toEnv bc node.pool →
    CacheValid me node address exNonce →
    (node.cachedTemplate me address exNonce).map (·.template.block.timestamp) = cached →
    (node.createBlockTemplate me address exNonce).1 = some t →
    Mined me.toChainEnv bc t b →
    ((node.createBlockTemplate me address exNonce).2.handleBlockToMainChain me.toChainEnv b).1 =
      .ok ()

section Mining

variable {bc : Blockchain} {now : UInt64} {cached : Option UInt64} {reward : UInt64} {weight : ℕ}
  {bc' : Blockchain} {me : MinerEnv}

theorem Mined.requeried {t : BlockTemplate} {b : Block} (h : Mined me.toChainEnv bc t b)
    (hquery : Requeried me.toEnv me.fns bc bc') : Mined me.toChainEnv bc' t b := by
  obtain ⟨⟨cache, rfl⟩, -⟩ := hquery
  exact ⟨h.nonce, h.work, h.checkpoint⟩

theorem Requeried.checkBlockTimestamp (h : Requeried me.toEnv me.fns bc bc') (b : Block) :
    bc'.checkBlockTimestamp me.toEnv b = bc.checkBlockTimestamp me.toEnv b := by
  obtain ⟨⟨cache, rfl⟩, -⟩ := h
  rfl

theorem Requeried.height (h : Requeried me.toEnv me.fns bc bc') : bc'.db.height = bc.db.height := by
  obtain ⟨⟨cache, rfl⟩, -⟩ := h
  rfl

/-- If the timestamps pass and the medians agree, what is mined is accepted. -/
theorem templatesMine_of_timeOk (hgenesis : 0 < bc.db.height) (hlimit : bc.LimitUpToDate)
    (hclock : now ≤ now + futureTimeLimit bc.getCurrentHardForkVersion)
    (htime : TemplateTimeOk bc now cached) (hmedians : bc.MediansAgree) :
    TemplatesMine bc now cached := by
  rintro me node address exNonce t b rfl rfl hpool hcache rfl ht hmined
  obtain ⟨⟨picks, reward, hassembled⟩, hquery, hsame⟩ := createBlockTemplate_some hpool hcache ht
  have htimestamp := (createBlockTemplate_timestamp_iff hclock hpool ht).mpr htime
  rw [hassembled.accepted_iff (hquery.height ▸ hgenesis) ((hpool.requeried hquery).samePool hsame)
    (hmined.requeried hquery), hquery.checkBlockTimestamp]
  refine ⟨htimestamp, ?_⟩
  have hrewarded := hassembled.rewarded
  obtain ⟨⟨cache, hbc⟩, -⟩ := hquery
  rw [hbc] at hrewarded ⊢
  rw [hlimit.half] at hrewarded
  exact acceptsReward_of_mediansAgree hlimit.2 hmedians hrewarded

/-! Some world in which a template has a given weight and nothing else stands in its way. -/

/-- Every transaction weighs `weight`, every proof of work is accepted, and no block has the id the
difficulty was last computed for. -/
def plainMiner (bc : Blockchain) (now : UInt64) (weight : ℕ) : MinerEnv where
  toEnv := { nonceEnv with
    blockHash := fun _ => bc.difficultyCache.difficultyForNextBlockTopHash + 1
    txWeight := fun _ => weight
    now := now }
  fns := ⟨fun _ _ _ => 1, fun _ _ _ => 1, fun _ _ _ _ => 1, fun _ _ _ => 1⟩
  blockLonghash _ _ _ := some 0
  checkHash _ _ := true
  blockNeedsPow _ _ := true
  checkpoints := []
  blocksHashCheckWeight _ := 0
  prunedTxWeight _ := 0
  feeRate _ _ := 0
  keyRank _ := 0
  coinbaseExtra _ _ := some []
  coinbaseKey _ _ := some 0
  templateAcceptThreshold amount := amount

def noOne : AccountPublicAddress := ⟨0, 0⟩

theorem plainMiner_diffic_ne (hgenesis : 0 < bc.db.height) (now : UInt64) (weight : ℕ) :
    (getDifficultyForNextBlock (plainMiner bc now weight).toEnv
        (plainMiner bc now weight).fns bc).1 ≠
      0 := by
  have htop : bc.db.topBlockHash (plainMiner bc now weight).toEnv ≠
      bc.difficultyCache.difficultyForNextBlockTopHash := by
    unfold BlockchainDB.topBlockHash
    rw [getLast?_eq_some_getLast (length_pos_iff.mp hgenesis)]
    exact Nat.succ_ne_self _
  have hnext : ∀ version timestamps difficulties,
      (plainMiner bc now weight).fns.next version timestamps difficulties = 1 := by
    intro version timestamps difficulties
    unfold DifficultyFns.next
    split_ifs <;> rfl
  unfold getDifficultyForNextBlock
  by_cases hfixed : bc.fixedDifficulty ≠ 0
  · rw [if_pos hfixed, if_pos (Nat.ne_of_gt hgenesis)]
    exact hfixed
  · rw [if_neg hfixed]
    simp only [if_neg htop, hnext]
    decide

theorem plainMiner_constructMinerTx {blockWeight medianWeight version : ℕ} {coins : UInt64}
    (h : getBlockReward medianWeight blockWeight coins version = some reward) (bc : Blockchain)
    (now : UInt64) (weight attempt height : ℕ) (fee : UInt64) :
    ∃ tx, constructMinerTx (plainMiner bc now weight) attempt height medianWeight coins blockWeight
      fee noOne [] version = some tx := by
  simp [constructMinerTx, plainMiner, h]

theorem tryCoinbase_of_const (env : Env) (fuel : ℕ) (construct : ℕ → ℕ → Option Transaction)
    {attempt : ℕ} {made : Transaction} (hconst : ∀ tx, env.txWeight tx = weight)
    (hmade : construct attempt weight = some made) :
    ∃ tx, tryCoinbase env 0 construct (fuel + 1) attempt weight = some tx := by
  simp [tryCoinbase, hmade, fitCoinbase, hconst]

/-- A miner with an empty pool gets a template. -/
theorem plainMiner_template (now : UInt64) (hgenesis : 0 < bc.db.height)
    (h : getBlockReward (bc.currentBlockCumulWeightLimit / 2) weight bc.db.generatedCoins
      bc.getCurrentHardForkVersion = some reward) :
    ∃ t, (Node.buildTemplate (plainMiner bc now weight) { bc, pool := {} } noOne []).1 = some t ∧
      t.block.txHashes = [] := by
  have hdiffic := plainMiner_diffic_ne hgenesis now weight
  obtain ⟨cache, hcache⟩ := getDifficultyForNextBlock_snd (plainMiner bc now weight).toEnv
    (plainMiner bc now weight).fns bc
  obtain ⟨reward₀, h₀⟩ := getBlockReward_zero_weight (bc.currentBlockCumulWeightLimit / 2)
    bc.db.generatedCoins bc.getCurrentHardForkVersion
  obtain ⟨first, hfirst⟩ := plainMiner_constructMinerTx h₀ bc now weight 0 bc.db.height 0
  obtain ⟨second, hsecond⟩ := plainMiner_constructMinerTx h bc now weight 1 bc.db.height 0
  obtain ⟨tx, htx⟩ := tryCoinbase_of_const (plainMiner bc now weight).toEnv 9
    (fun attempt blockWeight => constructMinerTx (plainMiner bc now weight) attempt
      bc.db.height (bc.currentBlockCumulWeightLimit / 2) bc.db.generatedCoins blockWeight 0 noOne []
      bc.getCurrentHardForkVersion) (fun _ => rfl) hsecond
  unfold Node.buildTemplate
  generalize getDifficultyForNextBlock (plainMiner bc now weight).toEnv
    (plainMiner bc now weight).fns bc = r at hdiffic hcache ⊢
  obtain ⟨diffic, bc'⟩ := r
  simp only [] at hdiffic hcache ⊢
  subst hcache
  rw [if_neg hdiffic]
  refine ⟨_, Option.map_eq_some_iff.mpr ⟨tx, ?_, rfl⟩, rfl⟩
  refine Option.bind_eq_some_iff.mpr ⟨first, hfirst, ?_⟩
  exact (congrArg _ (Nat.zero_add weight)).trans htx

def plainNode (bc : Blockchain) (t : BlockTemplate) (cached : Option UInt64) : Node where
  bc := bc
  pool := {}
  templateCache := cached.map fun timestamp =>
    ⟨{ t with block := { t.block with timestamp } }, noOne, [], 0⟩

theorem emptyPool_valid (env : Env) (bc : Blockchain) : PoolValid env bc {} :=
  ⟨forall_mem_nil _, forall_mem_nil _⟩

/-- What it means for a miner with an empty pool. -/
theorem TemplatesMine.plain (h : TemplatesMine bc now cached) (hgenesis : 0 < bc.db.height)
    (hclock : now ≤ now + futureTimeLimit bc.getCurrentHardForkVersion)
    (hreward : getBlockReward (bc.currentBlockCumulWeightLimit / 2) weight
      bc.db.generatedCoins bc.getCurrentHardForkVersion = some reward) :
    TemplateTimeOk bc now cached ∧ bc.AcceptsReward weight reward := by
  obtain ⟨t₀, ht₀, hempty₀⟩ := plainMiner_template now hgenesis hreward
  have hpool := emptyPool_valid (plainMiner bc now weight).toEnv bc
  obtain ⟨⟨picks₀, reward₀, hassembled₀⟩, -, -, -⟩ := buildTemplate_some ht₀ hpool
  have hcached : ((plainNode bc t₀ cached).cachedTemplate (plainMiner bc now weight) noOne []) =
      (plainNode bc t₀ cached).templateCache := by
    cases cached with
    | none => rfl
    | some timestamp =>
      simp [Node.cachedTemplate, plainNode, hassembled₀.prevId]
  have hcache : CacheValid (plainMiner bc now weight) (plainNode bc t₀ cached) noOne [] := by
    intro c hc
    rw [hcached] at hc
    cases cached with
    | none => cases hc
    | some timestamp =>
      cases hc
      exact ⟨picks₀, reward₀, hassembled₀.timestamp timestamp⟩
  obtain ⟨t, ht, hempty⟩ : ∃ t, ((plainNode bc t₀ cached).createBlockTemplate
      (plainMiner bc now weight) noOne []).1 = some t ∧ t.block.txHashes = [] := by
    unfold Node.createBlockTemplate
    rw [hcached]
    cases cached with
    | none => exact ⟨t₀, ht₀, hempty₀⟩
    | some timestamp => exact ⟨_, rfl, hempty₀⟩
  obtain ⟨⟨picks, reward', hassembled⟩, hquery, hsame⟩ := createBlockTemplate_some hpool hcache ht
  have haccepted := h (plainMiner bc now weight) (plainNode bc t₀ cached) noOne [] t
    { t.block with nonce := 0 } rfl rfl hpool hcache
    (by rw [hcached]; cases cached <;> rfl) ht ⟨⟨0, rfl⟩, rfl, rfl⟩
  have htime := createBlockTemplate_timestamp_iff hclock hpool ht
  rw [hcached] at htime
  rw [hassembled.accepted_iff (hquery.height ▸ hgenesis) ((hpool.requeried hquery).samePool hsame)
    (Mined.requeried ⟨⟨0, rfl⟩, rfl, rfl⟩ hquery), hquery.checkBlockTimestamp] at haccepted
  have hpicks : picks = [] := by
    have hids := hassembled.ids
    rw [hempty] at hids
    exact map_eq_nil_iff.mp hids.symm
  refine ⟨?_, ?_⟩
  · have hok := htime.mp haccepted.1
    cases cached <;> exact hok
  · have hrewarded := hassembled.rewarded
    have haccepts := haccepted.2
    obtain ⟨⟨cache, hbc⟩, -⟩ := hquery
    rw [hbc, hpicks] at hrewarded haccepts
    have hsame : reward' = reward := Option.some.inj (hrewarded.symm.trans hreward)
    rw [hsame] at haccepts
    exact haccepts

/-- With the limit up to date, every template can be mined exactly when the timestamp it gets is
acceptable and the two medians of the reward agree. -/
theorem templatesMine_iff (bc : Blockchain) (now : UInt64) (cached : Option UInt64)
    (hgenesis : 0 < bc.db.height) (hlimit : bc.LimitUpToDate)
    (hclock : now ≤ now + futureTimeLimit bc.getCurrentHardForkVersion) :
    TemplatesMine bc now cached ↔ TemplateTimeOk bc now cached ∧ bc.MediansAgree := by
  constructor
  · intro h
    refine ⟨?_, ?_⟩
    · obtain ⟨reward, hreward⟩ := getBlockReward_zero_weight (bc.currentBlockCumulWeightLimit / 2)
        bc.db.generatedCoins bc.getCurrentHardForkVersion
      exact (h.plain hgenesis hclock hreward).1
    · by_contra hmedians
      obtain ⟨weight, reward, hreward, hrefused⟩ := exists_not_acceptsReward hlimit.2 hmedians
      rw [← hlimit.half] at hreward
      exact hrefused (h.plain hgenesis hclock hreward).2
  · exact fun ⟨htime, hmedians⟩ => templatesMine_of_timeOk hgenesis hlimit hclock htime hmedians

end Mining

/-! A testnet chain with a block a minute, and a clock that is behind it. -/

def minuteInfo (i : ℕ) : BlockInfo where
  bl := numberedBlock (ForkTable.testnet.versionAt i) (1000000 + 60 * UInt64.ofNat i) i i
  txs := []
  blockWeight := 80
  longTermBlockWeight := 80
  cumulativeDifficulty := i + 1
  alreadyGeneratedCoins := minedCoins i

def minuteChain (n : ℕ) : Blockchain where
  db := { blocks := (List.range n).map minuteInfo }
  hardfork := { heights := ForkTable.testnet, currentForkIndex := ForkTable.testnet.indexAt n }
  currentBlockCumulWeightLimit := 600000

def minuteMiner (now : UInt64) : MinerEnv :=
  { plainMiner (minuteChain 0) now 80 with
    toEnv := { nonceEnv with txWeight := fun _ => 80, now }
    fns := sourceFns fun _ _ _ => 1 }

theorem templatesMine_iff_minuteChain :
    TemplatesMine (minuteChain 20) 1000740 none ↔
      TemplateTimeOk (minuteChain 20) 1000740 none ∧ (minuteChain 20).MediansAgree :=
  templatesMine_iff (minuteChain 20) 1000740 none (by decide) (by decide) (by decide)

/-- What the clock at 1000740 gets: the newest block is 400 seconds ahead of it, and the median of
the last twelve is 330 seconds below the newest. -/
def slowTemplate : BlockTemplate where
  block :=
    { majorVersion := 6, minorVersion := 14, timestamp := 1000810, prevId := 20, nonce := 0,
      minerTx :=
        ⟨1, 40, [.gen 20], [⟨69677045717964, .toKey 0⟩], [], ⟨.null, 0, [], [], [], []⟩, false⟩,
      txHashes := [] }
  diffic := 1
  height := 20
  expectedReward := 69677045717964

theorem template_of_slow_clock_refused :
    (minuteChain 20).LimitUpToDate ∧ PoolValid (minuteMiner 1000740).toEnv (minuteChain 20) {} ∧
    (Node.createBlockTemplate (minuteMiner 1000740)
        { bc := minuteChain 20, pool := {} } noOne []).1 =
      some slowTemplate ∧
    Mined (minuteMiner 1000740).toChainEnv (minuteChain 20) slowTemplate
      { slowTemplate.block with nonce := 20 } ∧
    ((Node.createBlockTemplate (minuteMiner 1000740) { bc := minuteChain 20, pool := {} } noOne
      []).2.handleBlockToMainChain (minuteMiner 1000740).toChainEnv
        { slowTemplate.block with nonce := 20 }).1 = .error .invalidTimestamp :=
  ⟨by decide +kernel, emptyPool_valid _ _, by decide +kernel, ⟨⟨20, rfl⟩, rfl, rfl⟩,
    by decide⟩

end Nerva
