import Nerva.ChainHistory
import Nerva.Proofs.DifficultyCache

/-!
# A locator finds the fork point

The first listed block that the other chain has lies at most twice as far below the top as the
highest block the two chains share.
-/

namespace Nerva

open List BlockchainDB

/-- A chain of blocks of `S`, each on the one below it. -/
structure Chained (env : Env) (S : Set Block) (db : BlockchainDB) : Prop where
  mem : ∀ info ∈ db.blocks, info.bl ∈ S
  first : ∀ info, db.blocks[0]? = some info → info.bl.prevId = nullHash
  linked : db.blocks.IsChain fun info next => next.bl.prevId = env.blockHash info.bl

/-- Both chains have the same block at the height. -/
def AgreeAt (env : Env) (A B : BlockchainDB) (height : ℕ) : Prop :=
  ∃ id, A.getBlockHashFromHeight env height = some id ∧
    B.getBlockHashFromHeight env height = some id

section Agreeing

variable {env : Env} {S : Set Block} {A B : BlockchainDB}

theorem Chained.prev (h : Chained env S A) {i : ℕ} {next : BlockInfo}
    (hnext : A.blocks[i + 1]? = some next) :
    ∃ info, A.blocks[i]? = some info ∧ info.bl ∈ S ∧ next.bl.prevId = env.blockHash info.bl := by
  obtain ⟨hlt, rfl⟩ := List.getElem?_eq_some_iff.mp hnext
  have hat := getElem?_eq_getElem (Nat.lt_of_succ_lt hlt)
  exact ⟨_, hat, h.mem _ (mem_of_getElem? hat), isChain_iff_getElem.mp h.linked i hlt⟩

/-- A block that both chains have is at one height in them, and so are the blocks below it. -/
theorem Chained.agree (hs : HashSound env S) (hA : Chained env S A) (hB : Chained env S B) :
    ∀ {i j : ℕ} {a b : BlockInfo}, A.blocks[i]? = some a → B.blocks[j]? = some b →
      env.blockHash a.bl = env.blockHash b.bl → i = j ∧ ∀ k ≤ i, AgreeAt env A B k
  | i, j, a, b, ha, hb, heq => by
    have hbl : a.bl = b.bl :=
      hs.injOn (hA.mem a (mem_of_getElem? ha)) (hB.mem b (mem_of_getElem? hb)) heq
    have hagree : ∀ k, k = i → i = j → AgreeAt env A B k := by
      rintro k rfl rfl
      refine ⟨env.blockHash b.bl, ?_, Option.map_eq_some_iff.mpr ⟨b, hb, rfl⟩⟩
      exact Option.map_eq_some_iff.mpr ⟨a, ha, heq⟩
    match i, j with
    | 0, 0 => exact ⟨rfl, fun k hk => hagree k (by omega) rfl⟩
    | 0, j + 1 =>
      obtain ⟨b', -, hS, hlink⟩ := hB.prev hb
      exact absurd (by rw [← hlink, ← hbl, hA.first a ha]) (hs.ne_null b'.bl hS)
    | i + 1, 0 =>
      obtain ⟨a', -, hS, hlink⟩ := hA.prev ha
      exact absurd (by rw [← hlink, hbl, hB.first b hb]) (hs.ne_null a'.bl hS)
    | i + 1, j + 1 =>
      obtain ⟨a', ha', -, hlinkA⟩ := hA.prev ha
      obtain ⟨b', hb', -, hlinkB⟩ := hB.prev hb
      obtain ⟨rfl, hbelow⟩ := Chained.agree hs hA hB ha' hb' (by rw [← hlinkA, ← hlinkB, hbl])
      refine ⟨rfl, fun k hk => ?_⟩
      rcases Nat.lt_or_ge i k with hlt | hle
      · exact hagree k (by omega) rfl
      · exact hbelow k hle

/-- Chains that agree at a height agree below it. -/
theorem AgreeAt.below (hs : HashSound env S) (hA : Chained env S A) (hB : Chained env S B)
    {f k : ℕ} (hf : AgreeAt env A B f) (hk : k ≤ f) : AgreeAt env A B k := by
  obtain ⟨id, hAf, hBf⟩ := hf
  obtain ⟨a, ha, rfl⟩ := Option.map_eq_some_iff.mp hAf
  obtain ⟨b, hb, hhash⟩ := Option.map_eq_some_iff.mp hBf
  exact (hA.agree hs hB ha hb hhash.symm).2 k hk

/-- What the other chain answers for the block at a height of this one. -/
theorem getBlockHeight_of_highest (hs : HashSound env S) (hA : Chained env S A)
    (hB : Chained env S B) {f : ℕ} (hf : AgreeAt env A B f)
    (hmax : ∀ h, AgreeAt env A B h → h ≤ f) {h : ℕ} {id : Hash}
    (hid : A.getBlockHashFromHeight env h = some id) :
    B.getBlockHeight env id = if h ≤ f then some h else none := by
  obtain ⟨a, ha, rfl⟩ := Option.map_eq_some_iff.mp hid
  have hfound : ∀ j, B.getBlockHeight env (env.blockHash a.bl) = some j →
      h = j ∧ ∀ k ≤ h, AgreeAt env A B k := by
    intro j hj
    obtain ⟨hlt, hhash, -⟩ := findIdx?_eq_some_iff_getElem.mp hj
    exact hA.agree hs hB ha (getElem?_eq_getElem hlt) (of_decide_eq_true hhash).symm
  split_ifs with hle
  · obtain ⟨id, hAh, hBh⟩ := hf.below hs hA hB hle
    obtain rfl := Option.some.inj (hid.symm.trans hAh)
    obtain ⟨b, hb, hbh⟩ := Option.map_eq_some_iff.mp hBh
    cases hj : B.getBlockHeight env (env.blockHash a.bl) with
    | none => exact absurd hbh (by simpa using findIdx?_eq_none_iff.mp hj b (mem_of_getElem? hb))
    | some j => rw [(hfound j hj).1]
  · cases hj : B.getBlockHeight env (env.blockHash a.bl) with
    | none => rfl
    | some j => exact absurd (hmax h ((hfound j hj).2 h (Nat.le_refl h))) hle

end Agreeing

section Heights

variable {sz : ℕ}

theorem backHeights_bounds : ∀ (fuel i m off : ℕ), ∀ h ∈ backHeights sz fuel i m off,
    0 < h ∧ h + off ≤ sz
  | 0, _, _, _, _, hh => absurd hh not_mem_nil
  | fuel + 1, i, m, off, h, hh => by
    unfold backHeights at hh
    split_ifs at hh with hoff hi
    · rcases mem_cons.mp hh with rfl | hh
      · omega
      · have := backHeights_bounds fuel _ _ _ h hh
        omega
    · rcases mem_cons.mp hh with rfl | hh
      · omega
      · have := backHeights_bounds fuel _ _ _ h hh
        omega
    · cases hh

theorem backHeights_pairwise : ∀ (fuel i m off : ℕ), 1 ≤ m →
    (backHeights sz fuel i m off).Pairwise (· > ·)
  | 0, _, _, _, _ => Pairwise.nil
  | fuel + 1, i, m, off, hm => by
    unfold backHeights
    split_ifs with hoff hi
    · refine pairwise_cons.mpr ⟨fun h hh => ?_, backHeights_pairwise fuel _ _ _ hm⟩
      have := backHeights_bounds fuel _ _ _ h hh
      omega
    · refine pairwise_cons.mpr ⟨fun h hh => ?_, backHeights_pairwise fuel _ _ _ (by omega)⟩
      have := backHeights_bounds fuel _ _ _ h hh
      omega
    · exact Pairwise.nil

theorem shortChainHeights_eq (h : 0 < sz) :
    shortChainHeights sz = backHeights sz sz 0 1 1 ++ [0] := by
  have hzero : (backHeights sz sz 0 1 1).contains 0 = false := by
    rw [Bool.eq_false_iff]
    intro hmem
    have := backHeights_bounds sz 0 1 1 0 (by simpa using hmem)
    omega
  unfold shortChainHeights
  simp only [hzero, h.ne', if_false, Bool.false_eq_true]

/-- The next listed block is at most twice as far below the top as the fork point, and so is the
first one at or below the fork point. Offset and multiplier double together from the tenth turn
on. -/
theorem backHeights_find {f : ℕ} (hf : f < sz) : ∀ (fuel i m off : ℕ), sz ≤ off + fuel →
    (i ≤ 10 ∧ m = 1 ∧ off = i + 1 ∨ 10 ≤ i ∧ 1 ≤ m ∧ off = 9 + 2 * m) → off ≤ 2 * (sz - 1 - f) + 1 →
    ∃ s, (backHeights sz fuel i m off ++ [0]).findSome?
        (fun h => if h ≤ f then some h else none) = some s ∧
      s ≤ f ∧ sz - 1 - s ≤ 2 * (sz - 1 - f)
  | 0, i, m, off, hfuel, _, hoff => ⟨0, by simp [backHeights], by omega, by omega⟩
  | fuel + 1, i, m, off, hfuel, hturn, hoff => by
    unfold backHeights
    by_cases hmore : off < sz
    · rw [if_pos hmore, cons_append, findSome?_cons]
      by_cases hle : sz - off ≤ f
      · rw [if_pos hle]
        exact ⟨sz - off, rfl, hle, by omega⟩
      · rw [if_neg hle]
        split_ifs with hi
        · exact backHeights_find hf fuel (i + 1) m (off + 1) (by omega) (by omega) (by omega)
        · exact backHeights_find hf fuel (i + 1) (m * 2) (off + m * 2) (by omega) (by omega)
            (by omega)
    · rw [if_neg hmore]
      exact ⟨0, by simp, by omega, by omega⟩

end Heights

theorem exists_ids (env : Env) (db : BlockchainDB) : ∀ heights : List ℕ,
    (∀ h ∈ heights, h < db.height) →
    ∃ ids, heights.mapM (db.getBlockHashFromHeight env) = some ids ∧
      heights.map (db.getBlockHashFromHeight env) = ids.map some
  | [], _ => ⟨[], rfl, rfl⟩
  | h :: heights, hlt => by
    obtain ⟨ids, hids, hmap⟩ := exists_ids env db heights fun k hk => hlt k (mem_cons_of_mem _ hk)
    obtain ⟨id, hid⟩ : ∃ id, db.getBlockHashFromHeight env h = some id :=
      ⟨_, Option.map_eq_some_iff.mpr ⟨_, getElem?_eq_getElem (hlt h mem_cons_self), rfl⟩⟩
    refine ⟨id :: ids, ?_, by rw [map_cons, hid, hmap, map_cons]⟩
    rw [mapM_cons, hid, hids]
    rfl

/-- The locator of `A` lists heights from its top down to genesis. `B` answers with a height of the
common part, at most twice as far below the top of `A` as the end of that part. -/
theorem findBlockchainSupplement_getShortChainHistory (env : Env) (S : Set Block)
    (hs : HashSound env S) (A B : BlockchainDB) (hA : Chained env S A) (hB : Chained env S B)
    (f : ℕ)
    (hf : AgreeAt env A B f) (hmax : ∀ h, AgreeAt env A B h → h ≤ f) :
    ∃ (heights : List ℕ) (ids : List Hash) (s : ℕ), A.getShortChainHistory env = some ids ∧
      ids.map some = heights.map (A.getBlockHashFromHeight env) ∧ heights.Pairwise (· > ·) ∧
      heights.head? = some (A.height - 1) ∧ heights.getLast? = some 0 ∧
      B.findBlockchainSupplement env ids = some s ∧ AgreeAt env A B s ∧ s ≤ f ∧
      (A.height - 1) - s ≤ 2 * ((A.height - 1) - f) := by
  have hlt : f < A.height := by
    obtain ⟨id, hid, -⟩ := hf
    obtain ⟨a, ha, -⟩ := Option.map_eq_some_iff.mp hid
    exact (List.getElem?_eq_some_iff.mp ha).1
  have hheights := shortChainHeights_eq (Nat.zero_lt_of_lt hlt)
  have hbounds := @backHeights_bounds A.height A.height 0 1 1
  obtain ⟨s, hfind, hsf, hbound⟩ :=
    backHeights_find hlt A.height 0 1 1 (by omega) (by omega) (by omega)
  rw [← hheights] at hfind
  obtain ⟨ids, hids, hmap⟩ := exists_ids env A (shortChainHeights A.height) (by
    rw [hheights]
    intro h hh
    rcases mem_append.mp hh with hh | hh
    · have := hbounds h hh
      omega
    · rw [mem_singleton.mp hh]
      omega)
  refine ⟨_, ids, s, hids, hmap.symm, ?_, ?_, by rw [hheights, getLast?_concat], ?_,
    hf.below hs hA hB hsf, hsf, hbound⟩
  · rw [hheights]
    refine pairwise_append.mpr ⟨backHeights_pairwise _ _ _ _ (Nat.le_refl 1),
      pairwise_singleton _ _,
      fun h hh k hk => ?_⟩
    rw [mem_singleton.mp hk]
    exact (hbounds h hh).1
  · rw [hheights]
    obtain ⟨n, hn⟩ : ∃ n, A.height = n + 1 := ⟨A.height - 1, by omega⟩
    rw [hn]
    cases n with
    | zero => rfl
    | succ n => rw [backHeights]; rfl
  · obtain ⟨id, hA0, hB0⟩ := hf.below hs hA hB (Nat.zero_le f)
    have hlast : ids.getLast? = some id := by
      have := congrArg List.getLast? hmap
      rw [hheights, getLast?_map, getLast?_concat, getLast?_map, Option.map_some, hA0] at this
      obtain ⟨id', hid', heq⟩ := Option.map_eq_some_iff.mp this.symm
      rw [hid', Option.some.inj heq]
    have hanswers : (fun h => (A.getBlockHashFromHeight env h).bind (B.getBlockHeight env)) =
        fun h => if h ≤ f then some h else none := by
      funext h
      cases hid : A.getBlockHashFromHeight env h with
      | none =>
        have hle : A.height ≤ h := by simpa [getBlockHashFromHeight, height] using hid
        exact (if_neg (by omega)).symm
      | some id => exact getBlockHeight_of_highest hs hA hB hf hmax hid
    have hbind : (ids.map some).findSome? (·.bind (B.getBlockHeight env)) = some s := by
      rw [← hmap, findSome?_map, ← hfind, ← hanswers]
      rfl
    rw [findSome?_map] at hbind
    unfold findBlockchainSupplement
    simp only [hlast, hB0]
    exact hbind

def numberedChain (ns : List ℕ) : BlockchainDB := { blocks := ns.map fun n => numberedInfo n 1 }

theorem findBlockchainSupplement_getShortChainHistory_numbered :
    ∃ (heights : List ℕ) (ids : List Hash) (s : ℕ),
      (numberedChain [0, 1, 2, 3]).getShortChainHistory nonceEnv = some ids ∧
      heights.getLast? = some 0 ∧
      (numberedChain [0, 1, 4]).findBlockchainSupplement nonceEnv ids = some s ∧ s ≤ 1 ∧
      3 - s ≤ 2 * (3 - 1) := by
  have hmax : ∀ h, AgreeAt nonceEnv (numberedChain [0, 1, 2, 3]) (numberedChain [0, 1, 4]) h →
      h ≤ 1 := by
    rintro h ⟨id, hA, hB⟩
    match h with
    | 0 | 1 => omega
    | 2 => exact absurd (hA.trans hB.symm) (by decide)
    | h + 3 => cases hB
  obtain ⟨heights, ids, s, hids, -, -, -, hlast, hs, -, hle, hbound⟩ :=
    findBlockchainSupplement_getShortChainHistory nonceEnv _ numberedBlocks_hashSound _ _
      ⟨by decide, by rintro _ ⟨⟩; rfl, by decide⟩ ⟨by decide, by rintro _ ⟨⟩; rfl, by decide⟩ 1
      ⟨2, rfl, rfl⟩ hmax
  exact ⟨heights, ids, s, hids, hlast, hs, hle, hbound⟩

end Nerva
