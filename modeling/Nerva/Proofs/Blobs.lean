import Nerva.Blobs
import Nerva.Proofs.Serialization

/-!
# Blobs and what they are read as

A block blob is what its block is written as unless a varint in it is cut off by its end. In a
transaction with inputs no varint can be: the ring signatures end in keys, or in the byte for the
type of none.
-/

namespace Nerva.Archive

open Codec List Bulletproof Option

theorem lawful_key : key.Lawful := lawful_blob 32

theorem closed_key : key.Closed := closed_blob 32

theorem hungry_key : key.Hungry := hungry_blob (by decide)

theorem lawful_txOutToScript : txOutToScript.Lawful :=
  ((lawful_container lawful_key).seq fun _ => lawful_container lawful_uint8).map fun _ _ => rfl

theorem lawful_txOutTarget : txOutTarget.Lawful := by
  refine lawful_variant ?_
  simp only [forall_mem_cons, not_mem_nil, false_implies, implies_true, and_true]
  exact ⟨lawfulAlternative lawful_txOutToScript (fun _ => rfl) fun _ => rfl,
    lawfulAlternative lawful_key (fun _ => rfl) fun _ => rfl,
    lawfulAlternative lawful_key (fun _ => rfl) fun _ => rfl⟩

theorem lawful_txOut : txOut.Lawful :=
  (lawful_varint64.seq fun _ => lawful_txOutTarget).map fun _ _ => rfl

theorem lawful_txInToScript : txInToScript.Lawful :=
  (lawful_key.seq fun _ => lawful_varint64.seq fun _ => lawful_container lawful_uint8).map
    fun _ _ => rfl

theorem lawful_txInToScripthash : txInToScripthash.Lawful :=
  (lawful_key.seq fun _ => lawful_varint64.seq fun _ => lawful_txOutToScript.seq fun _ =>
    lawful_container lawful_uint8).map fun _ _ => rfl

theorem lawful_txInToKey : txInToKey.Lawful :=
  (lawful_varint64.seq fun _ => (lawful_container lawful_varint64).seq fun _ => lawful_key).map
    fun _ _ => rfl

theorem lawful_txIn : txIn.Lawful := by
  refine lawful_variant ?_
  simp only [forall_mem_cons, not_mem_nil, false_implies, implies_true, and_true]
  exact ⟨lawfulAlternative lawful_varint64 (fun _ => rfl) fun _ => rfl,
    lawfulAlternative lawful_txInToScript (fun _ => rfl) fun _ => rfl,
    lawfulAlternative lawful_txInToScripthash (fun _ => rfl) fun _ => rfl,
    lawfulAlternative lawful_txInToKey (fun _ => rfl) fun _ => rfl⟩

/-- A transaction prefix is written as it is read. -/
theorem lawful_transactionPrefix : transactionPrefix.Lawful :=
  ((lawful_varint64.check _).seq fun _ => lawful_varint64.seq fun _ =>
    (lawful_container lawful_txIn).seq fun _ => (lawful_container lawful_txOut).seq fun _ =>
    lawful_container lawful_uint8).map fun _ _ => rfl

theorem RctType.toByte_of_ofByte {byte : UInt8} {type : RctType} (h : ofByte byte = some type) :
    type.toByte = byte := by
  simpa using find?_some h

theorem lawful_rctType : rctType.Lawful :=
  lawful_uint8.emap fun _ h => by rw [RctType.toByte_of_ofByte h]

theorem closed_rctType : rctType.Closed := closed_uint8.emap

theorem hungry_rctType : rctType.Hungry := hungry_uint8.emap

theorem lawful_outPkMask : outPkMask.Lawful := lawful_key.map fun _ _ => rfl

theorem lawful_ecdhTuple (type : RctType) : (ecdhTuple type).Lawful := by
  unfold ecdhTuple
  split_ifs
  · refine (lawful_blob 8).map fun amount _ => Subtype.ext ?_
    simp [amount.2]
  · exact (lawful_key.seq fun _ => lawful_key).map fun _ _ => rfl

theorem lawful_rctSigBaseFields (inputs outputs : ℕ) (type : RctType) :
    (rctSigBaseFields inputs outputs type).Lawful := by
  exact .ite _ (lawful_skip _) (lawful_varint64.seq fun _ =>
    Lawful.seq (.ite _ (lawful_key.array _) (lawful_skip _)) fun _ =>
    ((lawful_ecdhTuple type).array _).seq fun _ => lawful_outPkMask.array _)

theorem lawful_rctSigBase (inputs outputs : ℕ) : (rctSigBase inputs outputs).Lawful :=
  (lawful_rctType.seq (lawful_rctSigBaseFields inputs outputs)).map fun _ _ => rfl

theorem lawful_rangeSig : rangeSig.Lawful :=
  ((lawful_blob _).seq fun _ => lawful_blob _).map fun _ _ => rfl

theorem lawful_bulletproof : bulletproof.Lawful :=
  ((lawful_key.seq fun _ => lawful_key.seq fun _ => lawful_key.seq fun _ => lawful_key.seq fun _ =>
    lawful_key.seq fun _ => lawful_key.seq fun _ => (lawful_container lawful_key).seq fun _ =>
    (lawful_container lawful_key).seq fun _ => lawful_key.seq fun _ => lawful_key.seq fun _ =>
    lawful_key).map fun _ _ => rfl).check _

theorem lawful_bulletproofPlus : bulletproofPlus.Lawful :=
  ((lawful_key.seq fun _ => lawful_key.seq fun _ => lawful_key.seq fun _ => lawful_key.seq fun _ =>
    lawful_key.seq fun _ => lawful_key.seq fun _ => (lawful_container lawful_key).seq fun _ =>
    lawful_container lawful_key).map fun _ _ => rfl).check _

theorem lawful_countedProofs {α : Type} {proof : Codec UInt8 α} (h : proof.Lawful) (outputs : ℕ) :
    (countedProofs proof outputs).Lawful := by
  have hcount : (varint 32).Lawful := lawful_varint (by decide)
  refine Lawful.map ((hcount.check _).seq fun nbp => h.array _) fun x hx => ?_
  have hlen := length_of_reads_array hx.of_seq.2
  simp only [hlen, BitVec.ofNat_toNat, BitVec.setWidth_eq]
  rw [take_of_length_le hlen.le]

theorem lawful_rangeProofs (type : RctType) (outputs : ℕ) : (rangeProofs type outputs).Lawful := by
  unfold rangeProofs
  split_ifs
  · exact ((lawful_countedProofs lawful_bulletproofPlus _).check _).map fun _ _ => rfl
  · exact ((lawful_countedProofs lawful_bulletproof _).check _).map fun _ _ => rfl
  · exact (lawful_bulletproof.array _).map fun _ _ => rfl
  · exact (lawful_rangeSig.array _).map fun _ _ => rfl

section RingSigs

variable (mixin : ℕ)

theorem lawful_clsag : (clsag mixin).Lawful :=
  ((lawful_key.array _).seq fun _ => lawful_key.seq fun _ => lawful_key).map fun _ _ => rfl

theorem closed_clsag : (clsag mixin).Closed :=
  ((closed_key.array _).seq fun _ => closed_key.seq fun _ => closed_key).map

theorem hungry_clsag : (clsag mixin).Hungry := ((hungry_key.array (by omega)).seq _).map

theorem lawful_mgSig (columns : ℕ) : (mgSig mixin columns).Lawful :=
  (((lawful_key.array _).array _).seq fun _ => lawful_key).map fun _ _ => rfl

theorem closed_mgSig (columns : ℕ) : (mgSig mixin columns).Closed :=
  (((closed_key.array _).array _).seq fun _ => closed_key).map

theorem hungry_mgSig {columns : ℕ} (h : columns ≠ 0) : (mgSig mixin columns).Hungry :=
  (((hungry_key.array h).array (by omega)).seq _).map

variable (type : RctType) {inputs : ℕ}

theorem lawful_ringSigs (inputs : ℕ) : (ringSigs type inputs mixin).Lawful := by
  refine .ite _ ?_ ?_
  · exact (((lawful_clsag _).array _).seq fun _ => lawful_key.array _).map fun _ _ => rfl
  · exact (((lawful_mgSig _ _).array _).seq fun _ =>
      .ite _ (lawful_key.array _) (lawful_skip _)).map fun _ _ => rfl

theorem closed_ringSigs (inputs : ℕ) : (ringSigs type inputs mixin).Closed := by
  refine .ite _ ?_ ?_
  · exact (((closed_clsag _).array _).seq fun _ => closed_key.array _).map
  · exact (((closed_mgSig _ _).array _).seq fun _ =>
      .ite _ (closed_key.array _) (closed_skip _)).map

theorem hungry_ringSigs (h : inputs ≠ 0) : (ringSigs type inputs mixin).Hungry := by
  have hmgs : (if type.mgForEach then inputs else 1) ≠ 0 := by
    split_ifs
    · exact h
    · exact one_ne_zero
  refine .ite _ ?_ ?_
  · exact (((hungry_clsag _).array h).seq _).map
  · exact (((hungry_mgSig _ (Nat.succ_ne_zero _)).array hmgs).seq _).map

end RingSigs

section RctSignatures

variable {inputs outputs mixin : ℕ} {type : RctType} {tx : TransactionPrefix} {pruned : Bool}
  {base : RctSigBase} {rest s : Blob}

/-- The prunable part is written as it is read. -/
theorem lawful_rctSigPrunable (type : RctType) (inputs outputs mixin : ℕ) :
    (rctSigPrunable type inputs outputs mixin).Lawful := by
  refine .ite _ lawful_fail (.ite _ (lawful_skip _) ?_)
  exact ((lawful_rangeProofs _ _).seq fun _ => lawful_ringSigs _ _ _).map fun _ _ => rfl

/-- With inputs there is a ring signature at the end, so that nothing is cut off there. -/
theorem closed_rctSigPrunable (hinputs : inputs ≠ 0) :
    (rctSigPrunable type inputs outputs mixin).Closed := by
  refine .ite _ closed_fail (.ite _ (closed_skip _) ?_)
  exact ((lawful_rangeProofs _ _).closed_seq (fun _ => closed_ringSigs _ _ _)
    fun _ => hungry_ringSigs _ _ hinputs).map

theorem hungry_rctSigPrunable (hinputs : inputs ≠ 0) (htype : type ≠ .null) :
    (rctSigPrunable type inputs outputs mixin).Hungry := by
  unfold rctSigPrunable
  rw [if_neg htype]
  refine .ite _ rfl ?_
  exact ((lawful_rangeProofs _ _).hungry_seq fun _ => hungry_ringSigs _ _ hinputs).map

theorem read_rctSigBase_of_null (h : (rctSigBase inputs outputs).read true s = some (base, rest))
    (hnull : base.type = .null) : (rctSigBase inputs outputs).read false s = some (base, rest) := by
  obtain ⟨x, hread, rfl⟩ := read_map_iff.mp h
  obtain ⟨s', htype, hfields⟩ := read_seq_iff.mp hread
  refine read_map_iff.mpr ⟨x, read_seq_iff.mpr ⟨s', closed_rctType _ _ htype, ?_⟩, rfl⟩
  have hx : x.1 = .null := hnull
  rw [hx] at hfields ⊢
  exact hfields

/-- If a prunable part follows, the base was not cut off. -/
theorem read_rctSigBase_strict (hinputs : inputs ≠ 0)
    (h : (rctSigBase inputs outputs).read true s = some (base, rest))
    (hp : base.type ≠ .null → ∃ mixin x,
      (rctSigPrunable base.type inputs outputs mixin).read true rest = some x) :
    (rctSigBase inputs outputs).read false s = some (base, rest) := by
  by_cases hnull : base.type = .null
  · exact read_rctSigBase_of_null h hnull
  · rcases (lawful_rctSigBase _ _).lenient h with hstrict | ⟨rfl, -⟩
    · exact hstrict
    · obtain ⟨mixin, x, hx⟩ := hp hnull
      rw [hungry_rctSigPrunable hinputs hnull] at hx
      cases hx

theorem lawful_rctSignatures (pruned : Bool) (tx : TransactionPrefix) :
    (rctSignatures pruned tx).Lawful := by
  refine .ite _ (lawful_skip _) ?_
  exact ((lawful_rctSigBase _ _).seq fun _ =>
    .ite _ (lawful_skip _) (lawful_rctSigPrunable _ _ _ _)).map fun _ _ => rfl

theorem closed_rctSignatures (hvin : tx.vin ≠ []) : (rctSignatures false tx).Closed := by
  have hinputs : tx.vin.length ≠ 0 := by simpa using hvin
  unfold rctSignatures
  rw [if_neg (by simpa using hvin)]
  refine Closed.map ?_
  rintro s ⟨x, rest⟩ h
  obtain ⟨s', hbase, hp⟩ := read_seq_iff.mp h
  refine read_seq_iff.mpr ⟨s', ?_, ?_⟩
  · refine read_rctSigBase_strict hinputs hbase fun hnull => ?_
    rw [if_neg (by simp [hnull])] at hp
    exact ⟨_, _, hp⟩
  · exact Closed.ite _ (closed_skip _) (closed_rctSigPrunable hinputs) _ _ hp

theorem hungry_rctSignatures (hvin : tx.vin ≠ []) : (rctSignatures pruned tx).Hungry := by
  unfold rctSignatures
  rw [if_neg (by simpa using hvin)]
  exact ((hungry_rctType.seq _).map.seq _).map

end RctSignatures

theorem lawful_transactionFields (pruned : Bool) : (transactionFields pruned).Lawful :=
  (lawful_transactionPrefix.seq (lawful_rctSignatures pruned)).map fun _ _ => rfl

theorem pruned_of_read {lenient : Bool} {s rest : Blob} {tx : Transaction}
    (h : (transactionFields false).read lenient s = some (tx, rest)) : tx.pruned = false := by
  obtain ⟨x, -, rfl⟩ := read_map_iff.mp h
  rfl

/-- A transaction is written as it is read. -/
theorem lawful_transaction : transaction.Lawful where
  strict h := by
    simp only [transaction, pruned_of_read h]
    exact (lawful_transactionFields false).strict h
  lenient h := by
    simp only [transaction, pruned_of_read h]
    exact (lawful_transactionFields false).lenient h

/-- A block is written as it is read. -/
theorem lawful_block : block.Lawful := by
  have hheader : blockHeader.Lawful :=
    (lawful_varint8.seq fun _ => lawful_varint8.seq fun _ => lawful_varint64.seq fun _ =>
      lawful_key.seq fun _ => lawful_uint32).map fun _ _ => rfl
  exact (hheader.seq fun _ => lawful_transaction.seq fun _ =>
    (lawful_container lawful_key).check _).map fun _ _ => rfl

/-- No varint is cut off by the end of the blob: the reader that refuses one that is gets to the
end. -/
def WholeVarints (blob : Blob) : Prop := (block.parse false blob).isSome

instance (blob : Blob) : Decidable (WholeVarints blob) := inferInstanceAs (Decidable (_ = true))

/-- A parsed block is written as it was read exactly when no varint of the blob is cut off, and then
no other such blob is parsed as it. -/
theorem parseAndValidateBlockFromBlob_write_iff {s : Blob} {b : Block}
    (h : parseAndValidateBlockFromBlob s = some b) :
    (blockToBlob b = some s ↔ WholeVarints s) ∧
    ∀ s', parseAndValidateBlockFromBlob s' = some b → WholeVarints s → WholeVarints s' →
      s' = s := by
  have hwrite : ∀ {s'}, parseAndValidateBlockFromBlob s' = some b →
      (blockToBlob b = some s' ↔ WholeVarints s') := fun h' => lawful_block.write_eq_iff h'
  refine ⟨hwrite h, fun s' h' hwhole hwhole' => ?_⟩
  have hs := (hwrite h).mpr hwhole
  have hs' := (hwrite h').mpr hwhole'
  exact some.inj (hs'.symm.trans hs)

/-- Versions 1, timestamp 0, no previous block, nonce 0; a coinbase transaction of version 1 with
the input of height 0, no output and no ring signatures. -/
def bareBlob : Blob :=
  [1, 1, 0] ++ replicate 32 0 ++ [0, 0, 0, 0] ++ [1, 0, 1, 0xff, 0, 0, 0, 0]

theorem parseAndValidateBlockFromBlob_write_iff_bareBlob :
    ∃ b, parseAndValidateBlockFromBlob (bareBlob ++ [0]) = some b ∧
      WholeVarints (bareBlob ++ [0]) ∧ blockToBlob b = some (bareBlob ++ [0]) := by
  have hread : (parseAndValidateBlockFromBlob (bareBlob ++ [0])).isSome := by decide
  have hwhole : WholeVarints (bareBlob ++ [0]) := by decide
  obtain ⟨b, hb⟩ := isSome_iff_exists.mp hread
  exact ⟨b, hb, hwhole, (parseAndValidateBlockFromBlob_write_iff hb).1.mpr hwhole⟩

/-- The number of transaction hashes may be missing, or cut off, where there are none. -/
theorem parseAndValidateBlockFromBlob_cutBlob :
    ∃ b, parseAndValidateBlockFromBlob bareBlob = some b ∧
      parseAndValidateBlockFromBlob (bareBlob ++ [0x80]) = some b ∧
      parseAndValidateBlockFromBlob (bareBlob ++ [0]) = some b ∧
      blockToBlob b = some (bareBlob ++ [0]) ∧ blockToBlob b ≠ some bareBlob := by
  have hread : (parseAndValidateBlockFromBlob bareBlob).isSome := by decide
  obtain ⟨b, hb⟩ := isSome_iff_exists.mp hread
  have hsame : parseAndValidateBlockFromBlob (bareBlob ++ [0x80]) =
        parseAndValidateBlockFromBlob bareBlob ∧
      parseAndValidateBlockFromBlob (bareBlob ++ [0]) = parseAndValidateBlockFromBlob bareBlob ∧
      (parseAndValidateBlockFromBlob bareBlob).bind blockToBlob = some (bareBlob ++ [0]) := by
    decide
  obtain ⟨hcut, hwhole, hwrite⟩ := hsame
  rw [hb] at hcut hwhole hwrite
  have hwrite : blockToBlob b = some (bareBlob ++ [0]) := hwrite
  exact ⟨b, hb, hcut, hwhole, hwrite, by rw [hwrite]; decide⟩

section Unexpanded

def CtKey.unexpanded (pk : CtKey) : CtKey := { pk with dest := default }

def Bulletproof.unexpanded (bp : Bulletproof) : Bulletproof := { bp with V := [] }

def BulletproofPlus.unexpanded (bp : BulletproofPlus) : BulletproofPlus := { bp with V := [] }

def RctSigPrunable.unexpanded (p : RctSigPrunable) : RctSigPrunable :=
  { p with
    bulletproofs := p.bulletproofs.map Bulletproof.unexpanded
    bulletproofsPlus := p.bulletproofsPlus.map BulletproofPlus.unexpanded }

/-- The transaction without what is not part of its blob. -/
def Transaction.unexpanded (tx : Transaction) : Transaction :=
  { tx with
    rctSignatures :=
      { tx.rctSignatures with
        outPk := tx.rctSignatures.outPk.map CtKey.unexpanded
        p := tx.rctSignatures.p.unexpanded } }

theorem map_unexpanded_fillDests : ∀ {vout : List TxOut} {outPk outPk' : List CtKey},
    fillDests vout outPk = some outPk' →
    outPk'.map CtKey.unexpanded = outPk.map CtKey.unexpanded
  | o :: vout, pk :: outPk, outPk', h => by
    simp only [fillDests, bind_eq_bind, bind_eq_some_iff, Option.pure_def,
      some.injEq] at h
    obtain ⟨dest, -, rest, hrest, rfl⟩ := h
    simp [CtKey.unexpanded, map_unexpanded_fillDests hrest]
  | [], outPk, outPk', h => by
    simp only [fillDests, some.injEq] at h
    rw [h]
  | _ :: _, [], outPk', h => by
    simp only [fillDests, some.injEq] at h
    rw [h]

theorem map_unexpanded_fillProofs : ∀ {bps bps' : List Bulletproof} {outPk : List CtKey},
    fillProofs bps outPk = some bps' →
    bps'.map unexpanded = bps.map unexpanded
  | bp :: bps, bps', pk :: outPk, h => by
    simp only [fillProofs] at h
    split_ifs at h
    simp only [map_eq_some_iff] at h
    obtain ⟨rest, hrest, rfl⟩ := h
    simp [unexpanded, map_unexpanded_fillProofs hrest]
  | [], bps', outPk, h => by
    simp only [fillProofs, some.injEq] at h
    rw [h]
  | _ :: _, bps', [], h => by
    simp only [fillProofs, some.injEq] at h
    rw [h]

variable {scalarmultKey : Key → Key → Key} {invEight : Key} {tx tx' : Transaction} {α : Type}

theorem unexpanded_fillCommitments {outPk : List CtKey} {p : RctSigPrunable}
    (h : fillCommitments scalarmultKey invEight tx outPk = some p) :
    p.unexpanded = tx.rctSignatures.p.unexpanded := by
  unfold fillCommitments at h
  simp only at h
  split_ifs at h
  · simp only [map_eq_some_iff] at h
    obtain ⟨v, hv, rfl⟩ := h
    simp [RctSigPrunable.unexpanded, map_unexpanded_fillProofs hv]
  · split at h
    · next bp hbp =>
      split_ifs at h
      simp only [some.injEq] at h
      simp [← h, RctSigPrunable.unexpanded, hbp, unexpanded]
    · cases h
  · split at h
    · next bp hbp =>
      split_ifs at h
      simp only [some.injEq] at h
      simp [← h, RctSigPrunable.unexpanded, hbp, BulletproofPlus.unexpanded]
    · cases h
  · simp only [some.injEq] at h
    rw [h]

/-- `expand_transaction_1` only fills in what is not part of the blob. -/
theorem unexpanded_expandTransaction1
    (h : expandTransaction1 scalarmultKey invEight tx = some tx') :
    tx'.unexpanded = tx.unexpanded := by
  unfold expandTransaction1 at h
  split_ifs at h
  · rw [some.inj h]
  · simp only [bind_eq_bind, bind_eq_some_iff, Option.pure_def,
      some.injEq] at h
    obtain ⟨outPk, houtPk, p, hp, rfl⟩ := h
    simp [Transaction.unexpanded, map_unexpanded_fillDests houtPk, unexpanded_fillCommitments hp]

/-! What is filled in is not written. -/

theorem write_bulletproof_unexpanded (bp : Bulletproof) :
    bulletproof.write bp.unexpanded = bulletproof.write bp := by
  simp only [bulletproof, check, emap, Option.guard, unexpanded]
  split_ifs <;> rfl

theorem write_bulletproofPlus_unexpanded (bp : BulletproofPlus) :
    bulletproofPlus.write bp.unexpanded = bulletproofPlus.write bp := by
  simp only [bulletproofPlus, check, emap, Option.guard, BulletproofPlus.unexpanded]
  split_ifs <;> rfl

theorem write_countedProofs_map {proof : Codec UInt8 α} {f : α → α}
    (hf : ∀ a, proof.write (f a) = proof.write a) (outputs : ℕ) (l : List α) :
    (countedProofs proof outputs).write (l.map f) = (countedProofs proof outputs).write l := by
  simp only [countedProofs, Codec.map, emap, Codec.seq, bind_some, length_map,
    ← map_take, write_array_map hf]

theorem write_check_map {c : Codec UInt8 α} {q : α → Bool} {f : α → α}
    (hf : ∀ a, c.write (f a) = c.write a) (hq : ∀ a, q (f a) = q a) (a : α) :
    (c.check q).write (f a) = (c.check q).write a := by
  simp only [check, emap, Option.guard, hq]
  split_ifs
  · exact hf a
  · rfl

theorem write_rangeProofs_unexpanded (type : RctType) (outputs : ℕ) (p : RctSigPrunable) :
    (rangeProofs type outputs).write p.unexpanded.toRangeProofs =
      (rangeProofs type outputs).write p.toRangeProofs := by
  unfold rangeProofs
  split_ifs
  · refine write_check_map (write_countedProofs_map write_bulletproofPlus_unexpanded outputs)
      (fun l => ?_) p.bulletproofsPlus
    simp [nBulletproofPlusMaxAmounts, Function.comp_def, BulletproofPlus.unexpanded]
  · refine write_check_map (write_countedProofs_map write_bulletproof_unexpanded outputs)
      (fun l => ?_) p.bulletproofs
    simp [nBulletproofMaxAmounts, Function.comp_def, unexpanded]
  · exact write_array_map write_bulletproof_unexpanded outputs p.bulletproofs
  · rfl

theorem write_rctSigPrunable_unexpanded (type : RctType) (inputs outputs mixin : ℕ)
    (p : RctSigPrunable) :
    (rctSigPrunable type inputs outputs mixin).write p.unexpanded =
      (rctSigPrunable type inputs outputs mixin).write p := by
  unfold rctSigPrunable
  split_ifs
  · rfl
  · rfl
  · simp only [Codec.map, emap, Codec.seq, bind_some, write_rangeProofs_unexpanded]
    rfl

theorem write_rctSigBase_unexpanded (inputs outputs : ℕ) (base : RctSigBase) :
    (rctSigBase inputs outputs).write { base with outPk := base.outPk.map CtKey.unexpanded } =
      (rctSigBase inputs outputs).write base := by
  have hmasks := write_array_map (c := outPkMask) (f := CtKey.unexpanded) (fun _ => rfl) outputs
    base.outPk
  simp only [rctSigBase, Codec.map, emap, Codec.seq, bind_some, rctSigBaseFields]
  split_ifs
  · rfl
  · simp only [hmasks]
  · simp only [hmasks]

theorem write_rctSignatures_unexpanded (tx : Transaction) :
    (rctSignatures tx.pruned tx.toTransactionPrefix).write tx.unexpanded.rctSignatures =
      (rctSignatures tx.pruned tx.toTransactionPrefix).write tx.rctSignatures := by
  have hbase : (rctSigBase tx.vin.length tx.vout.length).write
      tx.unexpanded.rctSignatures.toRctSigBase =
      (rctSigBase tx.vin.length tx.vout.length).write tx.rctSignatures.toRctSigBase :=
    write_rctSigBase_unexpanded _ _ _
  have hprunable := write_rctSigPrunable_unexpanded tx.rctSignatures.type tx.vin.length
    tx.vout.length (mixin tx.vin) tx.rctSignatures.p
  have htype : tx.unexpanded.rctSignatures.type = tx.rctSignatures.type := rfl
  have hp : tx.unexpanded.rctSignatures.p = tx.rctSignatures.p.unexpanded := rfl
  unfold rctSignatures
  split_ifs
  · rfl
  · simp only [Codec.map, emap, Codec.seq, bind_some, hbase, htype, hp]
    split_ifs
    · rfl
    · rw [hprunable]

/-- Writing does not look at what was filled in. -/
theorem txToBlob_unexpanded (tx : Transaction) : txToBlob tx.unexpanded = txToBlob tx := by
  have hrct := write_rctSignatures_unexpanded tx
  have hprefix : tx.unexpanded.toTransactionPrefix = tx.toTransactionPrefix := rfl
  have hpruned : tx.unexpanded.pruned = tx.pruned := rfl
  simp only [txToBlob, transaction, transactionFields, Codec.map, emap, Codec.seq, bind_some,
    hprefix, hpruned, hrct]

end Unexpanded

section Transactions

variable {scalarmultKey : Key → Key → Key} {invEight : Key} {s : Blob} {tx : Transaction}

/-- A transaction with inputs is not cut off. -/
theorem read_strict_of_vin {rest : Blob}
    (h : (transactionFields false).read true s = some (tx, rest)) (hvin : tx.vin ≠ []) :
    (transactionFields false).read false s = some (tx, rest) := by
  obtain ⟨x, hseq, rfl⟩ := read_map_iff.mp h
  obtain ⟨s', hpre, hrct⟩ := read_seq_iff.mp hseq
  refine read_map_iff.mpr ⟨x, read_seq_iff.mpr ⟨s', ?_, closed_rctSignatures hvin _ _ hrct⟩, rfl⟩
  rcases lawful_transactionPrefix.lenient hpre with hstrict | ⟨rfl, -⟩
  · exact hstrict
  · rw [hungry_rctSignatures hvin] at hrct
    cases hrct

theorem txToBlob_of_parse (h : transaction.parse true s = some tx) (hvin : tx.vin ≠ []) :
    txToBlob tx = some s := by
  have hread : transaction.read false s = some (tx, []) :=
    read_strict_of_vin (parse_eq_some_iff.mp h) hvin
  rw [txToBlob, lawful_transaction.write_eq_iff h, parse_eq_some_iff.mpr hread]
  rfl

section

variable (h : parseAndValidateTxFromBlob scalarmultKey invEight s = some tx)

include h

/-- A parsed transaction is written as it was read. -/
theorem txToBlob_of_parseAndValidateTxFromBlob (hvin : tx.vin ≠ []) : txToBlob tx = some s := by
  obtain ⟨tx₀, hparse, hexpand⟩ := bind_eq_some_iff.mp h
  rw [← txToBlob_unexpanded, unexpanded_expandTransaction1 hexpand, txToBlob_unexpanded]
  exact txToBlob_of_parse hparse (congrArg (·.vin) (unexpanded_expandTransaction1 hexpand) ▸ hvin)

theorem pruned_of_parseAndValidateTxFromBlob : tx.pruned = false := by
  obtain ⟨tx₀, hparse, hexpand⟩ := bind_eq_some_iff.mp h
  have hpruned : tx.pruned = tx₀.pruned :=
    congrArg (fun t => t.pruned) (unexpanded_expandTransaction1 hexpand)
  rw [hpruned]
  exact pruned_of_read (parse_eq_some_iff.mp hparse)

end

/-- A blob that is accepted as a transaction with inputs is what the transaction is written as, so
that no other blob is accepted with the same fields and the same ring signatures. -/
theorem parseAndValidateTxFromBlob_injective
    (h : parseAndValidateTxFromBlob scalarmultKey invEight s = some tx) (hvin : tx.vin ≠ []) :
    txToBlob tx = some s ∧
    ∀ s' tx', parseAndValidateTxFromBlob scalarmultKey invEight s' = some tx' →
      tx'.toTransactionPrefix = tx.toTransactionPrefix → tx'.rctSignatures = tx.rctSignatures →
      s' = s := by
  refine ⟨txToBlob_of_parseAndValidateTxFromBlob h hvin, fun s' tx' h' hfields hrct => ?_⟩
  have hpruned : tx'.pruned = tx.pruned := by
    rw [pruned_of_parseAndValidateTxFromBlob h, pruned_of_parseAndValidateTxFromBlob h']
  obtain rfl : tx' = tx := by
    cases tx
    cases tx'
    simp_all
  have hs := txToBlob_of_parseAndValidateTxFromBlob h hvin
  have hs' := txToBlob_of_parseAndValidateTxFromBlob h' hvin
  exact some.inj (hs'.symm.trans hs)

/-- Version 2, one input with a ring of two, one output, and signatures of type CLSAG over a range
proof with six rounds. -/
def clsagBlob : Blob :=
  [2, 0, 1, 0x2, 0, 2, 5, 0x80, 1] ++ replicate 32 1 ++ [1, 0, 0x2] ++ replicate 32 2 ++
  [0, 6, 0x90, 0x4e] ++ replicate 40 3 ++ [1] ++ replicate 192 4 ++
  [6] ++ replicate 192 5 ++ [6] ++ replicate 192 6 ++ replicate 96 7 ++
  replicate 128 8 ++ replicate 32 9

theorem parseAndValidateTxFromBlob_injective_clsagBlob :
    ∃ tx, parseAndValidateTxFromBlob (fun k _ => k) default clsagBlob = some tx ∧ tx.vin ≠ [] ∧
      txToBlob tx = some clsagBlob := by
  have hread : ((parseAndValidateTxFromBlob (fun k _ => k) default clsagBlob).map
      fun tx => tx.vin.length) = some 1 := by decide +kernel
  obtain ⟨tx, htx, hlen⟩ := map_eq_some_iff.mp hread
  have hvin : tx.vin ≠ [] := ne_nil_of_length_eq_add_one hlen
  exact ⟨tx, htx, hvin, (parseAndValidateTxFromBlob_injective htx hvin).1⟩

end Transactions

end Nerva.Archive
