import Nerva.Fluffy

/-!
# The guard of the fluffy blocks

A message is handled as the announcement of a block unless objects were requested on the connection.
Asking for missing transactions does not request objects, so that the answer is not compared with
the request.
-/

namespace Nerva

open List Option

namespace FluffyState

variable {σ : Type} (c : FluffyCore σ)

/-- The hash of a transaction of a message and the core that has taken it, if it does. -/
def acceptTx (core : σ) (blob : Blob) : Option (Hash × σ) :=
  match c.parseTx blob with
  | some (some txHash) =>
    if c.poolHasTx core txHash then some (txHash, core)
    else if (c.handleIncomingTx core blob).1 then some (txHash, (c.handleIncomingTx core blob).2)
    else none
  | _ => none

/-- The pool takes all transactions. -/
def acceptTxs (c : FluffyCore σ) : σ → List Blob → Option (List Hash × σ)
  | core, [] => some ([], core)
  | core, blob :: blobs =>
    (acceptTx c core blob).bind fun x => (acceptTxs c x.2 blobs).map fun r => (x.1 :: r.1, r.2)

def withCore (s : FluffyState σ) (core : σ) (requested : Finset Hash) : FluffyState σ :=
  { s with core, ctx := { s.ctx with requestedObjects := requested } }

section Loop

variable {c : FluffyCore σ} {s : FluffyState σ} {blobs : List Blob}

theorem length_acceptTxs : ∀ {blobs : List Blob} {core core' : σ} {hashes : List Hash},
    acceptTxs c core blobs = some (hashes, core') → hashes.length = blobs.length
  | [], _, _, _, h => by
    cases h
    rfl
  | blob :: blobs, core, core', hashes, h => by
    obtain ⟨x, -, hrest⟩ := bind_eq_some_iff.mp h
    obtain ⟨r, hr, heq⟩ := map_eq_some_iff.mp hrest
    cases heq
    rw [length_cons, length_cons, length_acceptTxs hr]

theorem takeTxs_cons (blob : Blob) (blobs : List Blob) :
    (∃ txHash core, acceptTx c s.core blob = some (txHash, core) ∧
        (s.ctx.requestedObjects = ∅ ∨ txHash ∈ s.ctx.requestedObjects) ∧
        takeTxs c s (blob :: blobs) =
          takeTxs c (s.withCore core (s.ctx.requestedObjects.erase txHash)) blobs) ∨
      (∀ txHash core, acceptTx c s.core blob = some (txHash, core) →
          s.ctx.requestedObjects ≠ ∅ ∧ txHash ∉ s.ctx.requestedObjects) ∧
        (takeTxs c s (blob :: blobs)).1 = false := by
  unfold acceptTx
  rcases hparse : c.parseTx blob with _ | _ | txHash
  · exact .inr ⟨fun _ _ h => (by cases h), by simp only [takeTxs, hparse]⟩
  · exact .inr ⟨fun _ _ h => (by cases h), by simp only [takeTxs, hparse]⟩
  · simp only [takeTxs, hparse]
    by_cases hguard : s.ctx.requestedObjects ≠ ∅ ∧ txHash ∉ s.ctx.requestedObjects
    · refine .inr ⟨fun h core heq => ?_, by rw [if_pos hguard]⟩
      have hhash : txHash = h := by
        split_ifs at heq
        · exact (Prod.mk.inj (some.inj heq)).1
        · exact (Prod.mk.inj (some.inj heq)).1
      exact hhash ▸ hguard
    · rw [if_neg hguard]
      have hpass : s.ctx.requestedObjects = ∅ ∨ txHash ∈ s.ctx.requestedObjects := by
        rw [not_and_or, not_not, not_not] at hguard
        exact hguard
      by_cases hpool : c.poolHasTx s.core txHash = true
      · refine .inl ⟨txHash, s.core, by rw [if_pos hpool], hpass, ?_⟩
        rw [if_pos hpool]
        rfl
      · by_cases hok : (c.handleIncomingTx s.core blob).1 = true
        · refine .inl ⟨txHash, (c.handleIncomingTx s.core blob).2, ?_, hpass, ?_⟩
          · rw [if_neg hpool, if_pos hok]
          · rw [if_neg hpool, if_pos hok]
            rfl
        · refine .inr ⟨fun h core heq => ?_, ?_⟩
          · rw [if_neg hpool, if_neg hok] at heq
            cases heq
          · rw [if_neg hpool, if_neg hok]

theorem acceptTxs_cons {core : σ} {blob : Blob} {hashes : List Hash} {core' : σ} :
    acceptTxs c core (blob :: blobs) = some (hashes, core') ↔
      ∃ txHash core₁ rest, acceptTx c core blob = some (txHash, core₁) ∧
        acceptTxs c core₁ blobs = some (rest, core') ∧ hashes = txHash :: rest := by
  simp only [acceptTxs, bind_eq_some_iff, map_eq_some_iff, Prod.exists, Prod.mk.injEq]
  constructor
  · rintro ⟨txHash, core₁, haccept, rest, core₂, hrest, rfl, rfl⟩
    exact ⟨txHash, core₁, rest, haccept, hrest, rfl⟩
  · rintro ⟨txHash, core₁, rest, haccept, hrest, rfl⟩
    exact ⟨txHash, core₁, haccept, rest, core', hrest, rfl, rfl⟩

theorem takeTxs_of_empty : ∀ {blobs : List Blob} {s : FluffyState σ} (s' : FluffyState σ),
    s.ctx.requestedObjects = ∅ →
    (takeTxs c s blobs = (true, s') ↔
      ∃ hashes core, acceptTxs c s.core blobs = some (hashes, core) ∧ s' = s.withCore core ∅)
  | [], s, s', hr => by
    have hs : s.withCore s.core ∅ = s := by
      unfold withCore
      rw [← hr]
    simp [takeTxs, acceptTxs, hs, eq_comm]
  | blob :: blobs, s, s', hr => by
    simp only [acceptTxs_cons]
    rcases takeTxs_cons blob blobs with ⟨txHash, core, haccept, -, heq⟩ | ⟨hnone, hfalse⟩
    · rw [heq, takeTxs_of_empty s' (by rw [hr]; rfl)]
      constructor
      · rintro ⟨hashes, core', hrest, hs⟩
        exact ⟨_, core', ⟨txHash, core, hashes, haccept, hrest, rfl⟩, hs⟩
      · rintro ⟨-, core', ⟨txHash', core₁, hashes, haccept', hrest, rfl⟩, hs⟩
        obtain ⟨rfl, rfl⟩ := Prod.mk.inj (some.inj (haccept.symm.trans haccept'))
        exact ⟨hashes, core', hrest, hs⟩
    · refine iff_of_false (fun htrue => ?_) ?_
      · rw [htrue] at hfalse
        cases hfalse
      · rintro ⟨-, core', ⟨txHash, core₁, -, haccept, -⟩, -⟩
        exact (hnone txHash core₁ haccept).1 hr

/-- With as many objects requested as there are transactions, the loop gets through and leaves none
requested if the core takes the transactions and they are the ones requested. -/
theorem takeTxs_of_card : ∀ {blobs : List Blob} {s : FluffyState σ} (s' : FluffyState σ),
    s.ctx.requestedObjects.card = blobs.length →
    (takeTxs c s blobs = (true, s') ∧ s'.ctx.requestedObjects = ∅ ↔
      ∃ hashes core, acceptTxs c s.core blobs = some (hashes, core) ∧
        hashes.toFinset = s.ctx.requestedObjects ∧ s' = s.withCore core ∅)
  | [], s, s', hcard => by
    have hr : s.ctx.requestedObjects = ∅ := Finset.card_eq_zero.mp hcard
    have hs : s.withCore s.core ∅ = s := by
      unfold withCore
      rw [← hr]
    constructor
    · rintro ⟨htake, -⟩
      exact ⟨[], s.core, rfl, hr.symm, (Prod.mk.inj htake).2.symm.trans hs.symm⟩
    · rintro ⟨hashes, core, haccept, -, rfl⟩
      obtain ⟨rfl, rfl⟩ := Prod.mk.inj (some.inj haccept)
      exact ⟨congrArg (Prod.mk true) hs.symm, rfl⟩
  | blob :: blobs, s, s', hcard => by
    have hne : s.ctx.requestedObjects ≠ ∅ := by
      rw [← Finset.card_pos.trans Finset.nonempty_iff_ne_empty, hcard]
      exact Nat.zero_lt_succ _
    simp only [acceptTxs_cons]
    rcases takeTxs_cons blob blobs with ⟨txHash, core, haccept, hguard, heq⟩ | ⟨hnone, hfalse⟩
    · have hmem : txHash ∈ s.ctx.requestedObjects := hguard.resolve_left hne
      have hcard' :
          (s.withCore core (s.ctx.requestedObjects.erase txHash)).ctx.requestedObjects.card =
          blobs.length := by
        change (s.ctx.requestedObjects.erase txHash).card = _
        rw [Finset.card_erase_of_mem hmem, hcard, length_cons, Nat.add_sub_cancel]
      rw [heq, takeTxs_of_card s' hcard']
      constructor
      · rintro ⟨hashes, core', hrest, hset, hs⟩
        refine ⟨_, core', ⟨txHash, core, hashes, haccept, hrest, rfl⟩, ?_, hs⟩
        rw [toFinset_cons, hset]
        exact Finset.insert_erase hmem
      · rintro ⟨-, core', ⟨txHash', core₁, hashes, haccept', hrest, rfl⟩, hset, hs⟩
        obtain ⟨rfl, rfl⟩ := Prod.mk.inj (some.inj (haccept.symm.trans haccept'))
        refine ⟨hashes, core', hrest, ?_, hs⟩
        -- there are too few of the others for this one to be among them
        have hnot : txHash ∉ hashes.toFinset := by
          intro hin
          rw [toFinset_cons, Finset.insert_eq_of_mem hin] at hset
          have hle := toFinset_card_le hashes
          rw [hset, hcard, length_acceptTxs hrest, length_cons] at hle
          omega
        change hashes.toFinset = s.ctx.requestedObjects.erase txHash
        rw [← hset, toFinset_cons, Finset.erase_insert hnot]
    · refine iff_of_false (fun htrue => ?_) ?_
      · rw [htrue.1] at hfalse
        cases hfalse
      · rintro ⟨-, core', ⟨txHash, core₁, hashes, haccept, -, rfl⟩, hset, -⟩
        refine (hnone txHash core₁ haccept).2 ?_
        rw [← hset, toFinset_cons]
        exact Finset.mem_insert_self _ _

theorem takeTxs_passes_iff (s' : FluffyState σ)
    (hcard : s.ctx.requestedObjects = ∅ ∨ s.ctx.requestedObjects.card = blobs.length) :
    takeTxs c s blobs = (true, s') ∧ s'.ctx.requestedObjects = ∅ ↔
      ∃ hashes core, acceptTxs c s.core blobs = some (hashes, core) ∧
        (s.ctx.requestedObjects = ∅ ∨ hashes.toFinset = s.ctx.requestedObjects) ∧
        s' = s.withCore core ∅ := by
  by_cases hr : s.ctx.requestedObjects = ∅
  · rw [takeTxs_of_empty s' hr]
    simp only [hr, true_or, true_and]
    constructor
    · exact And.left
    · rintro ⟨hashes, core, haccept, rfl⟩
      exact ⟨⟨hashes, core, haccept, rfl⟩, rfl⟩
  · rw [takeTxs_of_card s' (hcard.resolve_left hr)]
    simp only [hr, false_or]

end Loop

/-- What the node has of a transaction: what is in the pool, or what the chain answers. -/
def lookupTx (core : σ) (txHash : Hash) : Option (List Blob) :=
  match c.getPoolTransaction core txHash with
  | some blob => some [blob]
  | none => c.getTransactions core txHash

/-- The chain answers no id with several transactions. -/
def Unambiguous (core : σ) (txHashes : List Hash) : Prop :=
  ∀ txHash ∈ txHashes, ∀ txs, lookupTx c core txHash = some txs → txs.length = 1

/-- The transactions that the core has. -/
def found (core : σ) (txHashes : List Hash) : List Blob :=
  txHashes.flatMap fun txHash => (lookupTx c core txHash).getD []

/-- The transactions that the core lacks. -/
def missing (core : σ) (txHashes : List Hash) : List Hash :=
  txHashes.filter fun txHash => (lookupTx c core txHash).isNone

/-- The places of the missing transactions, the first one at `start`. -/
def places (core : σ) (start : ℕ) (txHashes : List Hash) : List ℕ :=
  ((txHashes.zipIdx start).filter fun x => (lookupTx c core x.1).isNone).map (·.2)

section Lookup

variable {c : FluffyCore σ} {core : σ} {txHash : Hash} {txHashes : List Hash} {start : ℕ}

theorem places_sublist : places c core start txHashes <+ range' start txHashes.length := by
  have h := (filter_sublist (p := fun x => (lookupTx c core x.1).isNone)
    (l := txHashes.zipIdx start)).map (·.2)
  rwa [zipIdx_map_snd] at h

theorem filterMap_places :
    (places c core 0 txHashes).filterMap (txHashes[·]?) = missing c core txHashes := by
  have hget : ∀ x ∈ txHashes.zipIdx.filter fun x => (lookupTx c core x.1).isNone,
      txHashes[x.2]? = some x.1 := fun x hx =>
    mem_zipIdx_iff_getElem?.mp (mem_filter.mp hx).1
  have hfst : missing c core (txHashes.zipIdx.map (·.1)) =
      (txHashes.zipIdx.filter fun x => (lookupTx c core x.1).isNone).map (·.1) := List.filter_map
  rw [zipIdx_map_fst] at hfst
  rw [places, filterMap_map, hfst, ← filterMap_eq_map']
  exact filterMap_congr hget

theorem places_eq_nil_iff : places c core start txHashes = [] ↔ missing c core txHashes = [] := by
  have hfst : (txHashes.zipIdx start).map (·.1) = txHashes := zipIdx_map_fst ..
  rw [places, map_eq_nil_iff, filter_eq_nil_iff, missing, filter_eq_nil_iff]
  constructor
  · intro h txHash hmem
    obtain ⟨x, hx, rfl⟩ := mem_map.mp (hfst.symm ▸ hmem)
    exact h x hx
  · exact fun h x hx => h x.1 (hfst ▸ mem_map_of_mem hx)

theorem lookupTxs_cons : lookupTxs c core start (txHash :: txHashes) =
    match lookupTx c core txHash with
    | some [blob] => (lookupTxs c core (start + 1) txHashes).map fun r => (blob :: r.1, r.2)
    | some _ => none
    | none => (lookupTxs c core (start + 1) txHashes).map fun r => (r.1, start :: r.2) := by
  rw [lookupTxs, lookupTx]
  cases c.getPoolTransaction core txHash with
  | some blob => rfl
  | none =>
    rcases c.getTransactions core txHash with _ | _ | ⟨blob, _ | ⟨blob', rest⟩⟩ <;> rfl

/-- What `lookupTxs` finds, and the places of what is missing. -/
theorem lookupTxs_eq_some_iff : ∀ {txHashes : List Hash} {start : ℕ} {haveTx : List Blob}
    {need : List ℕ}, lookupTxs c core start txHashes = some (haveTx, need) ↔
      Unambiguous c core txHashes ∧ haveTx = found c core txHashes ∧
        need = places c core start txHashes
  | [], start, haveTx, need => by
    simp [lookupTxs, Unambiguous, found, places, eq_comm]
  | txHash :: txHashes, start, haveTx, need => by
    have hcons : Unambiguous c core (txHash :: txHashes) ↔
        (∀ txs, lookupTx c core txHash = some txs → txs.length = 1) ∧
          Unambiguous c core txHashes := forall_mem_cons
    rw [lookupTxs_cons, hcons]
    rcases hlook : lookupTx c core txHash with _ | _ | ⟨blob, _ | ⟨blob', rest⟩⟩
    · have hfound : found c core (txHash :: txHashes) = found c core txHashes := by
        simp [found, hlook]
      have hplaces : places c core start (txHash :: txHashes) =
          start :: places c core (start + 1) txHashes := by
        simp [places, hlook]
      rw [hfound, hplaces]
      simp only [map_eq_some_iff, Prod.exists, lookupTxs_eq_some_iff, Prod.mk.injEq]
      constructor
      · rintro ⟨_, _, ⟨hone, rfl, rfl⟩, rfl, rfl⟩
        exact ⟨⟨fun _ h => (by cases h), hone⟩, rfl, rfl⟩
      · rintro ⟨⟨-, hone⟩, rfl, rfl⟩
        exact ⟨_, _, ⟨hone, rfl, rfl⟩, rfl, rfl⟩
    · exact iff_of_false (fun h => by cases h) fun h => by cases h.1.1 _ rfl
    · have hfound : found c core (txHash :: txHashes) = blob :: found c core txHashes := by
        simp [found, hlook]
      have hplaces : places c core start (txHash :: txHashes) =
          places c core (start + 1) txHashes := by
        simp [places, hlook]
      rw [hfound, hplaces]
      simp only [map_eq_some_iff, Prod.exists, lookupTxs_eq_some_iff, Prod.mk.injEq]
      constructor
      · rintro ⟨_, _, ⟨hone, rfl, rfl⟩, rfl, rfl⟩
        refine ⟨⟨fun txs h => ?_, hone⟩, rfl, rfl⟩
        rw [← some.inj h]
        rfl
      · rintro ⟨⟨-, hone⟩, rfl, rfl⟩
        exact ⟨_, _, ⟨hone, rfl, rfl⟩, rfl, rfl⟩
    · exact iff_of_false (fun h => by cases h) fun h => by cases h.1.1 _ rfl

end Lookup

/-- The block of the message parses, the core takes its transactions, and they are the requested
objects if there are any. -/
structure Passes (c : FluffyCore σ) (s : FluffyState σ) (arg : FluffyBlock) (b : FluffyParsed)
    (core : σ) : Prop where
  block : c.parseBlock arg.block = some b
  txs : ∃ hashes, acceptTxs c s.core arg.txs = some (hashes, core) ∧
    (s.ctx.requestedObjects = ∅ ∨
      s.ctx.requestedObjects.card = arg.txs.length ∧ hashes.toFinset = s.ctx.requestedObjects)

/-- The handler looks at the message at all. -/
def Listens (s : FluffyState σ) : Prop :=
  s.state = .normal ∧ c.synchronized s.core = true

/-- The node takes the message, with this block and this core. -/
structure Taken (c : FluffyCore σ) (s : FluffyState σ) (arg : FluffyBlock) (b : FluffyParsed)
    (core : σ) : Prop where
  listens : Listens c s
  passes : Passes c s arg b core
  unambiguous : Unambiguous c core b.txHashes

/-- The node has every transaction of the block once it has taken those of the message. -/
def Completes (s : FluffyState σ) (arg : FluffyBlock) (b : FluffyParsed) (core : σ) : Prop :=
  Taken c s arg b core ∧ missing c core b.txHashes = []

/-- The message passes, and some transactions are missing. -/
def LeavesMissing (s : FluffyState σ) (arg : FluffyBlock) (b : FluffyParsed) (core : σ) : Prop :=
  Taken c s arg b core ∧ missing c core b.txHashes ≠ []

/-- The core is made to throw: the block is complete and cannot be prepared. -/
def Throws (s : FluffyState σ) (arg : FluffyBlock) : Prop :=
  ∃ b core, Completes c s arg b core ∧
    (c.prepareHandleIncomingBlocks core arg.block (found c core b.txHashes)).1 = none

section Message

variable {c : FluffyCore σ} {s : FluffyState σ} {arg : FluffyBlock} {b : FluffyParsed}
  {r : MissingTxRequest} {block : Blob} {haveTx : List Blob}

/-- The part of the handler after the loop over the transactions of the message. -/
def settle (c : FluffyCore σ) (s : FluffyState σ) (arg : FluffyBlock) (b : FluffyParsed) :
    FluffyOutcome × FluffyState σ :=
  match lookupTxs c s.core 0 b.txHashes with
  | none => (.failed, s.resumeMine)
  | some (haveTx, []) => handleComplete c s arg.block haveTx
  | some (_, txIdx :: rest) =>
    (.asked ⟨b.id, arg.currentBlockchainHeight, txIdx :: rest⟩, s.resumeMine)

/-- What becomes of a message that passes. -/
theorem settle_cases (c : FluffyCore σ) (s : FluffyState σ) (arg : FluffyBlock)
    (b : FluffyParsed) :
    (¬Unambiguous c s.core b.txHashes ∧ settle c s arg b = (.failed, s.resumeMine)) ∨
    (Unambiguous c s.core b.txHashes ∧ missing c s.core b.txHashes = [] ∧
      settle c s arg b = handleComplete c s arg.block (found c s.core b.txHashes)) ∨
    (Unambiguous c s.core b.txHashes ∧ missing c s.core b.txHashes ≠ [] ∧
      settle c s arg b = (.asked ⟨b.id, arg.currentBlockchainHeight,
        places c s.core 0 b.txHashes⟩, s.resumeMine)) := by
  unfold settle
  rcases hlookup : lookupTxs c s.core 0 b.txHashes with _ | ⟨haveTx, need⟩
  · refine .inl ⟨fun hone => ?_, rfl⟩
    cases hlookup.symm.trans (lookupTxs_eq_some_iff.mpr ⟨hone, rfl, rfl⟩)
  · obtain ⟨hone, rfl, rfl⟩ := lookupTxs_eq_some_iff.mp hlookup
    refine .inr ?_
    rcases hplaces : places c s.core 0 b.txHashes with _ | ⟨txIdx, rest⟩
    · exact .inl ⟨hone, places_eq_nil_iff.mp hplaces, rfl⟩
    · refine .inr ⟨hone, fun hnil => ?_, rfl⟩
      cases hplaces.symm.trans (places_eq_nil_iff.mpr hnil)

theorem Passes.unique {b' : FluffyParsed} {core core' : σ} (h : Passes c s arg b core)
    (h' : Passes c s arg b' core') : b = b' ∧ core = core' := by
  obtain ⟨hashes, htxs, -⟩ := h.txs
  obtain ⟨hashes', htxs', -⟩ := h'.txs
  exact ⟨some.inj (h.block.symm.trans h'.block),
    (Prod.mk.inj (some.inj (htxs.symm.trans htxs'))).2⟩

theorem takeTxs_pausers : ∀ (blobs : List Blob) (s : FluffyState σ),
    (takeTxs c s blobs).2.pausers = s.pausers
  | [], _ => rfl
  | blob :: blobs, s => by
    unfold takeTxs
    split
    · rfl
    · rfl
    · simp only []
      split_ifs
      · rfl
      · exact takeTxs_pausers blobs _
      · exact takeTxs_pausers blobs _
      · rfl

/-- A message is ignored, dropped, or passes. -/
theorem handleNotifyNewFluffyBlock_cases (c : FluffyCore σ) (s : FluffyState σ)
    (arg : FluffyBlock) :
    (¬Listens c s ∧ handleNotifyNewFluffyBlock c s arg = (.ignored, s)) ∨
    (Listens c s ∧ (∀ b core, ¬Passes c s arg b core) ∧
      ∃ s', handleNotifyNewFluffyBlock c s arg = (.dropped, s') ∧ s'.pausers = s.pausers) ∨
    (Listens c s ∧ ∃ b core, Passes c s arg b core ∧
      handleNotifyNewFluffyBlock c s arg = settle c (s.pauseMine.withCore core ∅) arg b) := by
  unfold handleNotifyNewFluffyBlock
  by_cases hlistens : Listens c s
  · have hgo : ¬(s.state ≠ .normal ∨ c.synchronized s.core = false) := by
      rintro (h | h)
      · exact h hlistens.1
      · rw [hlistens.2] at h
        cases h
    rw [if_neg hgo]
    refine .inr ?_
    cases hblock : c.parseBlock arg.block with
    | none =>
      refine .inl ⟨hlistens, fun b core h => ?_, _, rfl, rfl⟩
      cases hblock.symm.trans h.block
    | some b =>
      simp only []
      by_cases hcard : s.ctx.requestedObjects ≠ ∅ ∧ s.ctx.requestedObjects.card ≠ arg.txs.length
      · refine .inl ⟨hlistens, fun b core h => ?_, _, if_pos hcard, rfl⟩
        obtain ⟨hashes, -, hr | ⟨hr, -⟩⟩ := h.txs
        · exact hcard.1 hr
        · exact hcard.2 hr
      · have hfits : s.ctx.requestedObjects = ∅ ∨
            s.ctx.requestedObjects.card = arg.txs.length := by
          rw [not_and_or, not_not, not_not] at hcard
          exact hcard
        have hiff : ∀ s', takeTxs c s.pauseMine arg.txs = (true, s') ∧ _ ↔ _ := fun s' =>
          takeTxs_passes_iff s' hfits
        have hskip : ¬(s.pauseMine.ctx.requestedObjects ≠ ∅ ∧
          s.pauseMine.ctx.requestedObjects.card ≠ arg.txs.length) := hcard
        rw [if_neg hskip]
        by_cases hpass : (takeTxs c s.pauseMine arg.txs).1 = true ∧
            (takeTxs c s.pauseMine arg.txs).2.ctx.requestedObjects = ∅
        · obtain ⟨hashes, core, haccept, hguard, hstate⟩ :=
            (hiff (takeTxs c s.pauseMine arg.txs).2).mp ⟨Prod.ext hpass.1 rfl, hpass.2⟩
          have hguard' : s.ctx.requestedObjects = ∅ ∨
              s.ctx.requestedObjects.card = arg.txs.length ∧
                hashes.toFinset = s.ctx.requestedObjects := by
            rcases hguard with h | h
            · exact .inl h
            · exact hfits.imp_right fun hc => ⟨hc, h⟩
          refine .inr ⟨hlistens, b, core, ⟨hblock, hashes, haccept, hguard'⟩, ?_⟩
          simp only [hpass.1]
          rw [hstate]
          rfl
        · refine .inl ⟨hlistens, fun b core h => hpass ?_,
            (takeTxs c s.pauseMine arg.txs).2.resumeMine, ?_, ?_⟩
          · obtain ⟨hashes, haccept, hguard⟩ := h.txs
            obtain ⟨htake, hr⟩ := (hiff (s.pauseMine.withCore core ∅)).mpr
              ⟨hashes, core, haccept, hguard.imp_right And.right, rfl⟩
            rw [htake]
            exact ⟨rfl, hr⟩
          · have hdrop : (!(takeTxs c s.pauseMine arg.txs).1 ||
                decide ((takeTxs c s.pauseMine arg.txs).2.ctx.requestedObjects ≠ ∅)) = true := by
              rw [Bool.or_eq_true, Bool.not_eq_true', ← Bool.not_eq_true, decide_eq_true_eq]
              exact not_and_or.mp hpass
            exact if_pos hdrop
          · rw [resumeMine, takeTxs_pausers]
            rfl
  · have hstop : s.state ≠ .normal ∨ c.synchronized s.core = false := by
      rw [← Bool.not_eq_true]
      exact not_and_or.mp hlistens
    exact .inl ⟨hlistens, if_pos hstop⟩

theorem handleComplete_ne_asked : (handleComplete c s block haveTx).1 ≠ .asked r := by
  unfold handleComplete
  rcases c.prepareHandleIncomingBlocks s.core block haveTx with ⟨_ | _ | _, core⟩
  · simp
  · simp
  · simp only []
    split_ifs <;> simp

theorem handleComplete_pausers :
    (handleComplete c s block haveTx).2.pausers =
      if (c.prepareHandleIncomingBlocks s.core block haveTx).1 = none then s.pausers
      else s.pausers - 1 := by
  unfold handleComplete
  rcases c.prepareHandleIncomingBlocks s.core block haveTx with ⟨_ | _ | _, core⟩
  · rfl
  · rfl
  · simp only [reduceCtorEq, if_false]
    split_ifs <;> rfl

/-- What the handler does with a message, by what it finds in it and in the state. -/
theorem handleNotifyNewFluffyBlock_spec (c : FluffyCore σ) (s : FluffyState σ)
    (arg : FluffyBlock) :
    (¬Listens c s ∧ handleNotifyNewFluffyBlock c s arg = (.ignored, s)) ∨
    (Listens c s ∧ (∀ b core, ¬Passes c s arg b core) ∧
      ∃ s', handleNotifyNewFluffyBlock c s arg = (.dropped, s') ∧ s'.pausers = s.pausers) ∨
    (∃ b core, Passes c s arg b core ∧ ¬Unambiguous c core b.txHashes ∧
      handleNotifyNewFluffyBlock c s arg = (.failed, s.withCore core ∅)) ∨
    (∃ b core, Completes c s arg b core ∧ handleNotifyNewFluffyBlock c s arg =
      handleComplete c (s.pauseMine.withCore core ∅) arg.block (found c core b.txHashes)) ∨
    (∃ b core, LeavesMissing c s arg b core ∧ handleNotifyNewFluffyBlock c s arg =
      (.asked ⟨b.id, arg.currentBlockchainHeight, places c core 0 b.txHashes⟩,
        s.withCore core ∅)) := by
  rcases handleNotifyNewFluffyBlock_cases c s arg with
    hignored | hdropped | ⟨hlistens, b, core, hpass, heq⟩
  · exact .inl hignored
  · exact .inr (.inl hdropped)
  · refine .inr (.inr ?_)
    rcases settle_cases c (s.pauseMine.withCore core ∅) arg b with
      ⟨hone, hsettle⟩ | ⟨hone, hnil, hsettle⟩ | ⟨hone, hne, hsettle⟩
    · exact .inl ⟨b, core, hpass, hone, heq.trans hsettle⟩
    · exact .inr (.inl ⟨b, core, ⟨⟨hlistens, hpass, hone⟩, hnil⟩, heq.trans hsettle⟩)
    · exact .inr (.inr ⟨b, core, ⟨⟨hlistens, hpass, hone⟩, hne⟩, heq.trans hsettle⟩)

/-- When the peer is asked, and for what. -/
theorem asked_iff (c : FluffyCore σ) (s : FluffyState σ) (arg : FluffyBlock)
    (r : MissingTxRequest) :
    (handleNotifyNewFluffyBlock c s arg).1 = .asked r ↔ ∃ b core, LeavesMissing c s arg b core ∧
      r = ⟨b.id, arg.currentBlockchainHeight, places c core 0 b.txHashes⟩ := by
  rcases handleNotifyNewFluffyBlock_spec c s arg with
    ⟨hnot, heq⟩ | ⟨hlistens, hnone, s', heq, -⟩ | ⟨b, core, hpass, hmany, heq⟩ |
      ⟨b, core, hcomplete, heq⟩ | ⟨b, core, hleaves, heq⟩
  · rw [heq]
    refine iff_of_false (fun h => by cases h) ?_
    rintro ⟨b, core, h, -⟩
    exact hnot h.1.listens
  · rw [heq]
    refine iff_of_false (fun h => by cases h) ?_
    rintro ⟨b, core, h, -⟩
    exact hnone b core h.1.passes
  · rw [heq]
    refine iff_of_false (fun h => by cases h) ?_
    rintro ⟨b', core', h, -⟩
    obtain ⟨rfl, rfl⟩ := hpass.unique h.1.passes
    exact hmany h.1.unambiguous
  · rw [heq]
    refine iff_of_false handleComplete_ne_asked ?_
    rintro ⟨b', core', h, -⟩
    obtain ⟨rfl, rfl⟩ := hcomplete.1.passes.unique h.1.passes
    exact h.2 hcomplete.2
  · rw [heq]
    constructor
    · exact fun h => ⟨b, core, hleaves, (FluffyOutcome.asked.inj h).symm⟩
    · rintro ⟨b', core', h, rfl⟩
      obtain ⟨rfl, rfl⟩ := hleaves.1.passes.unique h.1.passes
      rfl

/-- Nothing is requested on the connection once transactions are asked for. -/
theorem requestedObjects_of_asked (h : (handleNotifyNewFluffyBlock c s arg).1 = .asked r) :
    (handleNotifyNewFluffyBlock c s arg).2.ctx.requestedObjects = ∅ := by
  rcases handleNotifyNewFluffyBlock_spec c s arg with
    ⟨-, heq⟩ | ⟨-, -, s', heq, -⟩ | ⟨b, core, -, -, heq⟩ | ⟨b, core, -, heq⟩ | ⟨b, core, -, heq⟩
  · rw [heq] at h
    cases h
  · rw [heq] at h
    cases h
  · rw [heq]
    rfl
  · rw [heq] at h
    exact absurd h handleComplete_ne_asked
  · rw [heq]
    rfl

/-- Mining is left paused by a block that makes the core throw, and by no other message. -/
theorem handleNotifyNewFluffyBlock_pausers (c : FluffyCore σ) (s : FluffyState σ)
    (arg : FluffyBlock) :
    (¬Throws c s arg ∧ (handleNotifyNewFluffyBlock c s arg).2.pausers = s.pausers) ∨
      (Throws c s arg ∧ (handleNotifyNewFluffyBlock c s arg).2.pausers = s.pausers + 1) := by
  rcases handleNotifyNewFluffyBlock_spec c s arg with
    ⟨hnot, heq⟩ | ⟨-, hnone, s', heq, hpausers⟩ | ⟨b, core, hpass, hmany, heq⟩ |
      ⟨b, core, hcomplete, heq⟩ | ⟨b, core, hleaves, heq⟩
  · refine .inl ⟨?_, by rw [heq]⟩
    rintro ⟨b, core, h, -⟩
    exact hnot h.1.listens
  · refine .inl ⟨?_, by rw [heq, hpausers]⟩
    rintro ⟨b, core, h, -⟩
    exact hnone b core h.1.passes
  · refine .inl ⟨?_, by rw [heq]; rfl⟩
    rintro ⟨b', core', h, -⟩
    obtain ⟨rfl, rfl⟩ := hpass.unique h.1.passes
    exact hmany h.1.unambiguous
  · rw [heq, handleComplete_pausers]
    by_cases hthrows : (c.prepareHandleIncomingBlocks core arg.block
        (found c core b.txHashes)).1 = none
    · exact .inr ⟨⟨b, core, hcomplete, hthrows⟩, if_pos hthrows⟩
    · refine .inl ⟨?_, if_neg hthrows⟩
      rintro ⟨b', core', h, hnone⟩
      obtain ⟨rfl, rfl⟩ := hcomplete.1.passes.unique h.1.passes
      exact hthrows hnone
  · refine .inl ⟨?_, by rw [heq]; rfl⟩
    rintro ⟨b', core', h, -⟩
    obtain ⟨rfl, rfl⟩ := hleaves.1.passes.unique h.1.passes
    exact hleaves.2 h.2

end Message

/-- A fluffy block comes, or anything else happens. -/
inductive Event (σ : Type)
  | fluffy (arg : FluffyBlock)
  | other (s : FluffyState σ)

/-- The fluffy blocks that come until the connection is dropped or an exception ends it, with the
states they find. -/
def received (c : FluffyCore σ) :
    FluffyState σ → List (Event σ) → List (FluffyState σ × FluffyBlock)
  | _, [] => []
  | _, .other s :: events => received c s events
  | s, .fluffy arg :: events =>
    let (outcome, s') := handleNotifyNewFluffyBlock c s arg
    (s, arg) :: if outcome = .dropped ∨ outcome = .threw then [] else received c s' events

/-- The transactions that a request names. -/
def missingTxs (arg : FluffyBlock) (r : MissingTxRequest) : List Hash :=
  ((c.parseBlock arg.block).map fun b => r.missingTxIndices.filterMap (b.txHashes[·]?)).getD []

/-- The message has the block with this id and just these transactions. -/
def Carries (arg : FluffyBlock) (id : Hash) (txHashes : List Hash) : Prop :=
  (c.parseBlock arg.block).map (·.id) = some id ∧
    ∃ hashes : List Hash, arg.txs.map c.parseTx = hashes.map (fun h => some (some h)) ∧
      hashes.Nodup ∧ hashes.toFinset = txHashes.toFinset

/-- The message has the block and just the transactions that were asked for. -/
def Answers (arg' arg : FluffyBlock) (r : MissingTxRequest) : Prop :=
  Carries c arg' r.blockHash (missingTxs c arg r)

theorem LeavesMissing.missingTxs_eq {c : FluffyCore σ} {s : FluffyState σ} {arg : FluffyBlock}
    {b : FluffyParsed} {core : σ} (h : LeavesMissing c s arg b core) :
    missingTxs c arg ⟨b.id, arg.currentBlockchainHeight, places c core 0 b.txHashes⟩ =
      missing c core b.txHashes := by
  rw [missingTxs, h.1.passes.block]
  exact filterMap_places

def normalState : FluffyState Unit where
  core := ()
  ctx := { connectionId := 1, isIncome := true, pruningSeed := 0 }
  state := .normal
  pausers := 0

section Answer

variable {c : FluffyCore σ}

theorem collectTxids_eq {txHashes : List Hash} : ∀ {indices seen : List ℕ}, indices.Nodup →
    (∀ i ∈ indices, i < txHashes.length ∧ i ∉ seen) →
    collectTxids txHashes seen indices = some (indices.filterMap (txHashes[·]?))
  | [], _, _, _ => rfl
  | txIdx :: rest, seen, hnodup, hplaces => by
    obtain ⟨hnew, hnodup⟩ := nodup_cons.mp hnodup
    obtain ⟨⟨hlt, hseen⟩, hplaces⟩ := forall_mem_cons.mp hplaces
    have hget := getElem?_eq_getElem hlt
    have hrest : collectTxids txHashes (txIdx :: seen) rest = _ :=
      collectTxids_eq hnodup fun i hi => by
        obtain ⟨hlt, hseen⟩ := hplaces i hi
        exact ⟨hlt, not_mem_cons_of_ne_of_not_mem (fun h => hnew (h ▸ hi)) hseen⟩
    rw [collectTxids, hget, filterMap_cons_some hget]
    simp only [if_neg hseen, hrest, Option.map_some]

/-- A peer that has the block and its transactions does not drop the connection for what the node
asks of it, and sends the answer, in the order of the request. -/
theorem handleRequestFluffyMissingTx_answers {peer : σ} {s : FluffyState σ} {arg : FluffyBlock}
    {r : MissingTxRequest} {blob : Blob} {b : FluffyParsed}
    (hasked : (handleNotifyNewFluffyBlock c s arg).1 = .asked r)
    (hannounced : c.parseBlock arg.block = some b)
    (hblock : c.getBlockByHash peer b.id = some (blob, b)) (hparse : c.parseBlock blob = some b)
    (hnodup : b.txHashes.Nodup)
    (htxs : ∀ txid ∈ b.txHashes, ∃ tx, c.getTransactions peer txid = some [tx] ∧
      c.parseTx tx = some (some txid)) :
    ∃ arg', handleRequestFluffyMissingTx c peer r = some arg' ∧ Answers c arg' arg r ∧
      arg'.txs.map c.parseTx = (missingTxs c arg r).map fun txid => some (some txid) := by
  obtain ⟨b', core, hleaves, rfl⟩ := (asked_iff c s arg r).mp hasked
  obtain rfl : b = b' := some.inj (hannounced.symm.trans hleaves.1.passes.block)
  have hsub : places c core 0 b.txHashes <+ range' 0 b.txHashes.length := places_sublist
  have hids : collectTxids b.txHashes [] (places c core 0 b.txHashes) = _ :=
    collectTxids_eq (hsub.nodup nodup_range') fun i hi =>
      ⟨by have := mem_range'_1.mp (hsub.subset hi); omega, not_mem_nil⟩
  rw [filterMap_places] at hids
  unfold Answers
  rw [hleaves.missingTxs_eq]
  generalize htxids : missing c core b.txHashes = txids at hids
  have hmiss : txids <+ b.txHashes := htxids ▸ filter_sublist
  have hfound : ∀ txid ∈ txids, ∃ tx, c.getTransactions peer txid = some [tx] ∧
      c.parseTx tx = some (some txid) := fun txid hmem => htxs txid (hmiss.subset hmem)
  have hparsed : (txids.flatMap fun txid => (c.getTransactions peer txid).getD []).map c.parseTx =
      txids.map fun txid => some (some txid) := by
    rw [map_flatMap, map_eq_flatMap]
    refine flatMap_congr fun txid hmem => ?_
    obtain ⟨tx, hget, htx⟩ := hfound txid hmem
    simp [hget, htx]
  have hlen := congrArg length hparsed
  rw [length_map, length_map] at hlen
  have hmissed : txids.filter (fun txid => (c.getTransactions peer txid).isNone) = [] := by
    refine filter_eq_nil_iff.mpr fun txid hmem => ?_
    obtain ⟨tx, hget, -⟩ := hfound txid hmem
    simp [hget]
  refine ⟨⟨blob, txids.flatMap fun txid => (c.getTransactions peer txid).getD [],
    arg.currentBlockchainHeight⟩, ?_, ⟨?_, txids, hparsed, hmiss.nodup hnodup, rfl⟩, hparsed⟩
  · simp only [handleRequestFluffyMissingTx, hblock, hids]
    exact if_neg (not_or.mpr ⟨not_not.mpr hmissed, not_not.mpr hlen⟩)
  · rw [hparse, Option.map_some]

/-- A core whose state says whether it has the block `7` and its transaction `5`. -/
def twoNodesCore : FluffyCore Bool where
  parseBlock _ := some ⟨7, [5]⟩
  parseTx _ := some (some 5)
  synchronized _ := true
  poolHasTx _ _ := false
  handleIncomingTx core _ := (true, core)
  getPoolTransaction _ _ := none
  getTransactions core _ := if core then some [[2]] else none
  prepareHandleIncomingBlocks core _ _ := (some true, core)
  handleIncomingBlock core _ := ({}, core)
  cleanupHandleIncomingBlocks core := (true, core)
  updateCheckpoints core := core
  shortChainHistory _ := []
  getBlockByHash core _ := if core then some ([1], ⟨7, [5]⟩) else none

theorem twoNodesCore_answers :
    ∃ arg', handleRequestFluffyMissingTx twoNodesCore true ⟨7, 100, [0]⟩ = some arg' ∧
      Answers twoNodesCore arg' ⟨[1], [], 100⟩ ⟨7, 100, [0]⟩ ∧
      arg'.txs.map twoNodesCore.parseTx =
        (missingTxs twoNodesCore ⟨[1], [], 100⟩ ⟨7, 100, [0]⟩).map fun txid => some (some txid) :=
  handleRequestFluffyMissingTx_answers (s := { normalState with core := false })
    rfl rfl rfl rfl (by decide) fun txid hmem => ⟨[2], rfl, by rw [mem_singleton.mp hmem]; rfl⟩

end Answer

end FluffyState

end Nerva
