import Nerva.Lib.Lists
import Nerva.Proofs.ChainHistory

/-!
# Served blocks and their weights

The blocks that are found are paired with the ids that were asked for, so that after an unknown id
an entry gets the weight of another block.
-/

namespace Nerva

open BlockchainDB List

section Labels

variable (env : Env) (db : BlockchainDB) (blockToBlob : Block → Blob)
  (fill : Hash → Option TxBlobEntry) (prune : Bool) (ids : List Hash)

/-- The entry is the block that was asked for. -/
structure BlockCompleteEntry.Describes (b : BlockInfo) (e : BlockCompleteEntry) : Prop where
  block : e.block = blockToBlob b.bl
  txs : Forall₂ (fun txHash tx => fill txHash = some tx) b.bl.txHashes e.txs
  weight : prune = true → e.blockWeight = b.blockWeight

/-- There is an entry for each known block in turn, and the unknown ids are those missed. -/
structure GetObjectsResponse.Labelled (rsp : GetObjectsResponse) : Prop where
  blocks : Forall₂ (BlockCompleteEntry.Describes blockToBlob fill prune)
    (ids.filterMap (db.getBlock env)) rsp.blocks
  missed : rsp.missedIds = ids.filter fun id => (db.getBlock env id).isNone

end Labels

variable {env : Env} {db : BlockchainDB} {blockToBlob : Block → Blob}
  {fill : Hash → Option TxBlobEntry} {prune : Bool} {ids : List Hash}

theorem getBlocks_eq (ids : List Hash) : db.getBlocks env ids =
    (ids.filterMap (db.getBlock env), ids.filter fun id => (db.getBlock env id).isNone) := by
  induction ids with
  | nil => rfl
  | cons id ids ih => cases h : db.getBlock env id <;> simp [getBlocks, h, ih]

/-- An entry is right exactly when its weight is, if it is pruned. -/
theorem completeEntry_describes_iff {id : Hash} {b : BlockInfo} {e : BlockCompleteEntry}
    (h : completeEntry env db blockToBlob fill prune id b = some e) :
    e.Describes blockToBlob fill prune b ↔ (prune = true → db.weightOf env id = b.blockWeight) := by
  obtain ⟨txs, htxs, hreturn⟩ := Option.bind_eq_some_iff.1 h
  obtain rfl := Option.some.inj hreturn
  constructor
  · intro hdescribes hprune
    exact (if_pos hprune).symm.trans (hdescribes.weight hprune)
  · intro hweight
    exact ⟨rfl, Lists.forall₂_of_mapM_eq_some htxs,
      fun hprune => (if_pos hprune).trans (hweight hprune)⟩

theorem describes_iff {pairs : List (Hash × BlockInfo)} {entries : List BlockCompleteEntry}
    (h : Forall₂ (fun x e => completeEntry env db blockToBlob fill prune x.1 x.2 = some e) pairs
      entries) :
    Forall₂ (BlockCompleteEntry.Describes blockToBlob fill prune) (pairs.map (·.2)) entries ↔
      ∀ x ∈ pairs, prune = true → db.weightOf env x.1 = x.2.blockWeight := by
  induction h with
  | nil => simp
  | cons hhead _ ih =>
    rw [map_cons, forall₂_cons, forall_mem_cons, ih, completeEntry_describes_iff hhead]

/-- What is served is labelled right just when each known block weighs as much as the one whose id
stands at its place in the request, where unknown ids count. -/
theorem handleGetObjects_labelled_iff {rsp : GetObjectsResponse}
    (h : handleGetObjects env db blockToBlob fill prune ids = some rsp) :
    rsp.Labelled env db blockToBlob fill prune ids ↔
      ∀ x ∈ ids.zip (ids.filterMap (db.getBlock env)),
        prune = true → db.weightOf env x.1 = x.2.blockWeight := by
  obtain ⟨entries, hentries, hreturn⟩ := Option.bind_eq_some_iff.1 h
  obtain rfl := Option.some.inj hreturn
  rw [getBlocks_eq] at hentries
  have hiff := describes_iff (Lists.forall₂_of_mapM_eq_some hentries)
  have hsnd : (ids.zip (ids.filterMap (db.getBlock env))).map (·.2) = _ :=
    map_snd_zip (length_filterMap_le _ _)
  rw [hsnd] at hiff
  rw [← hiff]
  exact ⟨fun hlabelled => hlabelled.blocks, fun hblocks => ⟨hblocks, by rw [getBlocks_eq]⟩⟩

def twoWeights : BlockchainDB where
  blocks := [{ numberedInfo 0 1 with blockWeight := 10 },
    { numberedInfo 1 1 with blockWeight := 20 }]

theorem handleGetObjects_labelled_known :
    ∃ rsp, handleGetObjects nonceEnv twoWeights (fun _ => []) (fun _ => none) true [2, 1, 7] =
        some rsp ∧
      rsp.Labelled nonceEnv twoWeights (fun _ => []) (fun _ => none) true [2, 1, 7] :=
  ⟨_, rfl, (handleGetObjects_labelled_iff rfl).2 (by decide)⟩

theorem handleGetObjects_unknown_not_labelled :
    ∃ rsp, handleGetObjects nonceEnv twoWeights (fun _ => []) (fun _ => none) true [7, 1, 2] =
        some rsp ∧
      ¬rsp.Labelled nonceEnv twoWeights (fun _ => []) (fun _ => none) true [7, 1, 2] := by
  refine ⟨_, rfl, fun hlabelled => ?_⟩
  cases hlabelled.blocks with
  | cons hhead _ => exact absurd (hhead.weight rfl) (by decide)

end Nerva
