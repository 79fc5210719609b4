import Nerva.ForkVotes
import Nerva.Proofs.ForkState

/-!
# The hard fork state over whole runs

Where the counters are those of the deque, every function does to the rest of the state what it does
without counters, and leaves the counters those of the deque.
-/

namespace Nerva

open List

namespace ForkTable

variable {t : ForkTable} {forks : List Fork} {f : Fork}

theorem indexAt_zero (t : ForkTable) : t.indexAt 0 = t.first := by
  by_contra hne
  have hz : (t.indexAt 0).val ≠ 0 := fun hz => hne (Fin.ext hz)
  have hfirst : t.first.val < (t.indexAt 0).val := Nat.pos_of_ne_zero hz
  have hlt := (pairwise_iff_getElem.mp t.increasing _ _ t.first.isLt (t.indexAt 0).isLt hfirst).2
  have hle := t.reached_of_indexAt hz
  exact Nat.not_lt_zero _ (Nat.lt_of_lt_of_le hlt hle)

theorem seekVersion_versionAt (t : ForkTable) (height : ℕ) :
    HardFork.seekVersion t (t.versionAt height) = t.indexAt height := by
  have hlt := (t.indexAt height).isLt
  have hidx :
      (t.forks.findIdx fun f => f.version = t.versionAt height) = (t.indexAt height).val := by
    rw [findIdx_eq hlt]
    refine ⟨decide_eq_true rfl, fun j hj => decide_eq_false ?_⟩
    exact Nat.ne_of_lt (t.version_lt (i := ⟨j, Nat.lt_trans hj hlt⟩) hj)
  have hval : (HardFork.seekVersion t (t.versionAt height)).val =
      min (t.forks.findIdx fun f => f.version = t.versionAt height) (t.forks.length - 1) := rfl
  rw [Fin.ext_iff, hval, hidx]
  exact Nat.min_eq_left (by omega)

theorem addFork_pos (h : ∀ g ∈ forks, 0 < g.version) : ∀ g ∈ addFork forks f, 0 < g.version := by
  unfold addFork
  split_ifs with hzero
  · exact h
  · exact h
  · exact h
  · intro g hg
    rcases mem_append.1 hg with hg | hg
    · exact h g hg
    · exact mem_singleton.1 hg ▸ Nat.pos_of_ne_zero hzero

theorem mem_addFork {g : Fork} (h : g ∈ addFork forks f) : g ∈ forks ∨ g = f := by
  unfold addFork at h
  split_ifs at h
  · exact .inl h
  · exact .inl h
  · exact .inl h
  · exact (mem_append.1 h).imp_right mem_singleton.1

theorem foldl_addFork : ∀ (forks : List Fork) {table : List Fork}, (∀ g ∈ table, 0 < g.version) →
    (∀ g ∈ forks.foldl addFork table, 0 < g.version) ∧
      ∀ g ∈ forks.foldl addFork table, g ∈ table ∨ g ∈ forks
  | [], _, h => ⟨h, fun _ => .inl⟩
  | f :: forks, table, h => by
    obtain ⟨hpos, hmem⟩ := foldl_addFork forks (addFork_pos (f := f) h)
    refine ⟨hpos, fun g hg => ?_⟩
    rcases hmem g hg with hg | hg
    · rcases mem_addFork hg with hg | rfl
      · exact .inl hg
      · exact .inr mem_cons_self
    · exact .inr (mem_cons_of_mem _ hg)

theorem ofAdded_spec (h : ∀ f ∈ forks, f.threshold = 0) :
    (ofAdded forks).NoVoting ∧ ∀ f ∈ (ofAdded forks).forks, 0 < f.version := by
  obtain ⟨hpos, hmem⟩ := @foldl_addFork forks [] fun _ h => absurd h not_mem_nil
  have hcases : (ofAdded forks).forks = [⟨1, 0, 0⟩] ∨
      (ofAdded forks).forks = forks.foldl addFork [] := by
    unfold ofAdded added
    simp only []
    split
    · exact .inl rfl
    · rename_i heq
      exact .inr heq.symm
  rcases hcases with hcase | hcase
  · unfold NoVoting
    rw [hcase]
    simp
  · unfold NoVoting
    rw [hcase]
    exact ⟨fun f hf => h f ((hmem f hf).resolve_left not_mem_nil), hpos⟩

end ForkTable

namespace VotingFork

variable {s : VotingFork} {db : BlockchainDB} {height : ℕ}

/-- The counts of the versions are those of the window. -/
def Tallied (s : VotingFork) : Prop := Histogram.Of s.lastVersions s.versions

theorem votedFrom_eq (h : s.Tallied) (height : ℕ) : ∀ {n : ℕ} (hn : n ≤ s.heights.forks.length)
    (votes : ℕ), s.votedFrom height n hn votes = s.toHardFork.votedFrom height n hn votes
  | 0, _, _ => rfl
  | n + 1, hn, votes => by
    rw [votedFrom, h, votedFrom_eq h height]
    rfl

theorem advance_eq (h : s.Tallied) (height : ℕ) :
    (s.advance height).toHardFork = s.toHardFork.advance height := by
  have hvoted : s.getVotedForkIndex height = s.toHardFork.getVotedForkIndex height :=
    votedFrom_eq h height _ 0
  unfold advance HardFork.advance
  rw [hvoted]

theorem Tallied.advance (h : s.Tallied) (height : ℕ) : (s.advance height).Tallied := h

theorem Tallied.pushBack (h : s.Tallied) (version : ℕ) : (s.pushBack version).Tallied :=
  Histogram.Of.concat h version

theorem Tallied.popFront (hpos : 0 < s.windowSize) (h : s.Tallied) : s.popFront.Tallied :=
  (Histogram.trim_eq hpos s.versions h).2

theorem clear_tallied (s : VotingFork) : s.clear.Tallied := Histogram.of_nil

/-- With the tally, a block is added as without it. -/
theorem add_eq (hpos : 0 < s.windowSize) (h : s.Tallied) (db : BlockchainDB) (b : Block)
    (height : ℕ) :
    (s.add db b height).1.toHardFork = (s.toHardFork.add db b height).1 ∧
      (s.add db b height).2 = (s.toHardFork.add db b height).2 ∧ (s.add db b height).1.Tallied := by
  have hpushed := (h.popFront hpos).pushBack (s.getEffectiveVersion b.vote)
  unfold add HardFork.add
  split_ifs
  · refine ⟨?_, rfl, hpushed⟩
    rw [advance_eq hpushed]
    unfold HardFork.pushVote VotingFork.pushBack VotingFork.popFront
    simp only [(Histogram.trim_eq hpos s.versions h).1]
  · exact ⟨rfl, rfl, h⟩

theorem addAll_eq : ∀ (infos : List BlockInfo) (height : ℕ) {s : VotingFork} (db : BlockchainDB),
    0 < s.windowSize → s.Tallied →
    (addAll height infos (s, db)).1.toHardFork =
        (HardFork.addAll height infos (s.toHardFork, db)).1 ∧
      (addAll height infos (s, db)).2 = (HardFork.addAll height infos (s.toHardFork, db)).2 ∧
      (addAll height infos (s, db)).1.Tallied
  | [], _, _, _, _, h => ⟨rfl, rfl, h⟩
  | info :: infos, height, s, db, hpos, h => by
    obtain ⟨hfork, hdb, htallied⟩ := add_eq hpos h db info.bl height
    have hpos' : 0 < (s.add db info.bl height).1.windowSize := by
      rw [hfork, HardFork.add_windowSize]
      exact hpos
    rw [addAll, HardFork.addAll]
    rcases hadd : s.add db info.bl height with ⟨s', db'⟩
    rcases hadd' : s.toHardFork.add db info.bl height with ⟨hf, db''⟩
    rw [hadd] at hfork hdb htallied hpos'
    rw [hadd'] at hfork hdb
    subst hfork hdb
    exact addAll_eq infos (height + 1) db' hpos' htallied

theorem scan_eq : ∀ (infos : List BlockInfo) {s : VotingFork}, s.Tallied →
    (s.scan infos).toHardFork = { s.toHardFork with
        versions := s.versions ++ infos.map fun b => s.getEffectiveVersion b.bl.vote } ∧
      (s.scan infos).Tallied
  | [], s, h => by simpa [scan] using h
  | info :: infos, s, h => by
    have ih := scan_eq infos (h.pushBack (s.getEffectiveVersion info.bl.vote))
    refine ⟨ih.1.trans ?_, ih.2⟩
    simp only [pushBack, append_assoc]
    rfl

theorem reorganizeFromBlockHeight_eq (hpos : 0 < s.windowSize) (h : s.Tallied) (db : BlockchainDB)
    (height : ℕ) :
    (s.reorganizeFromBlockHeight db height).1.toHardFork =
        (s.toHardFork.reorganizeFromBlockHeight db height).1 ∧
      (s.reorganizeFromBlockHeight db height).2 =
        (s.toHardFork.reorganizeFromBlockHeight db height).2 ∧
      (s.reorganizeFromBlockHeight db height).1.Tallied := by
  unfold reorganizeFromBlockHeight HardFork.reorganizeFromBlockHeight
  by_cases hle : db.height ≤ height
  · rw [if_pos hle, if_pos hle]
    exact ⟨rfl, rfl, h⟩
  · rw [if_neg hle, if_neg hle]
    simp only []
    generalize (if height = 0 then s.originalVersion else db.getHardForkVersion height) = version
    generalize (db.blocks.take (height + 1)).drop (height - (s.windowSize - 1)) = infos
    have hlowered : (s.clear.lowerTo version).Tallied := s.clear_tallied
    obtain ⟨hscan, htallied⟩ := scan_eq infos hlowered
    have hwindow : ((s.clear.lowerTo version).scan infos).windowSize = s.windowSize := by
      rw [hscan]
      rfl
    have hall := addAll_eq (db.blocks.drop (height + 1)) (height + 1) db
      (hwindow.symm ▸ hpos) (htallied.advance (height + 1))
    rw [advance_eq htallied, hscan] at hall
    exact hall

/-- A rescan does not depend on the tally. -/
theorem rescanFromBlockHeight_eq (h : s.Tallied) (db : BlockchainDB) (height : ℕ) :
    (s.rescanFromBlockHeight db height).toHardFork =
        s.toHardFork.rescanFromBlockHeight db height ∧
      (s.rescanFromBlockHeight db height).Tallied := by
  unfold rescanFromBlockHeight HardFork.rescanFromBlockHeight
  by_cases hle : db.height ≤ height
  · rw [if_pos hle, if_pos hle]
    exact ⟨rfl, h⟩
  · rw [if_neg hle, if_neg hle]
    obtain ⟨hscan, htallied⟩ := scan_eq (db.blocks.drop height) s.clear_tallied
    have hseek : ((s.clear.scan (db.blocks.drop height)).seek
        (db.getHardForkVersion (db.height - 1))).Tallied := htallied
    refine ⟨?_, hseek⟩
    rw [advance_eq hseek]
    unfold seek
    rw [hscan]
    rfl

theorem rescanFromChainHeight_eq (h : s.Tallied) (db : BlockchainDB) (height : ℕ) :
    (s.rescanFromChainHeight db height).toHardFork =
        s.toHardFork.rescanFromChainHeight db height ∧
      (s.rescanFromChainHeight db height).Tallied := by
  unfold rescanFromChainHeight HardFork.rescanFromChainHeight
  split_ifs
  · exact ⟨rfl, h⟩
  · exact rescanFromBlockHeight_eq h db _

theorem init_eq (s : VotingFork) (db : BlockchainDB) :
    (s.init db).toHardFork = s.toHardFork.init db ∧ (s.init db).Tallied := by
  apply rescanFromChainHeight_eq
  exact s.clear_tallied

theorem Tallied.popVersion (h : s.Tallied) (hne : s.versions ≠ []) (version : ℕ) :
    (s.popVersion version).Tallied := by
  rcases eq_nil_or_concat' s.versions with hnil | ⟨front, last, hconcat⟩
  · exact absurd hnil hne
  · unfold Tallied at h ⊢
    unfold VotingFork.popVersion
    rw [hconcat] at h ⊢
    simp only [dropLast_concat, getLastD_concat]
    exact h.dropLast.cons version

/-- Popping blocks keeps the tally and the length of the window. -/
theorem popVersions_spec (db : BlockchainDB) (newChainHeight : ℕ) : ∀ (n : ℕ) {s : VotingFork},
    s.Tallied → s.versions ≠ [] →
    (popVersions db newChainHeight n s).Tallied ∧
      (popVersions db newChainHeight n s).versions.length = s.versions.length ∧
      (popVersions db newChainHeight n s).heights = s.heights ∧
      (popVersions db newChainHeight n s).windowSize = s.windowSize ∧
      (popVersions db newChainHeight n s).originalVersion = s.originalVersion
  | 0, _, h, _ => ⟨h, rfl, rfl, rfl, rfl⟩
  | n + 1, s, h, hne => by
    have hpos := length_pos_iff.2 hne
    obtain ⟨htallied, hlen, hrest⟩ := popVersions_spec db newChainHeight n
      (h.popVersion hne (db.getHardForkVersion (newChainHeight + n))) (cons_ne_nil _ _)
    refine ⟨htallied, hlen.trans ?_, hrest⟩
    rw [popVersion, length_cons, length_dropLast]
    omega

end VotingFork

namespace HardFork

variable {t : ForkTable} {window : ℕ} {hf : HardFork} {db : BlockchainDB} {height : ℕ}
  {db₀ : BlockchainDB} {blocks : List BlockInfo} {info : BlockInfo}

/-- A rescan of a recorded chain is in step with it. -/
theorem rescan_follows (hz : hf.heights.NoVoting) (hpos : 0 < hf.windowSize)
    (horiginal : hf.originalVersion ≤ (hf.heights.forks.get hf.heights.first).version)
    (hrecorded : ∀ i < db.height, db.hfVersions.lookup i = some (hf.heights.versionAt i))
    (hlt : height < db.height) : (hf.rescanFromBlockHeight db height).Follows db db.height := by
  unfold rescanFromBlockHeight
  rw [if_neg (Nat.not_le.2 hlt)]
  have hlast : db.getHardForkVersion (db.height - 1) = hf.heights.versionAt (db.height - 1) := by
    rw [BlockchainDB.getHardForkVersion, hrecorded _ (by omega), Option.getD_some]
  simp only [hlast, hf.heights.seekVersion_versionAt]
  refine ⟨hz, hpos, horiginal, ?_, hrecorded⟩
  apply advance_inSync
  · exact hz
  · exact hf.heights.indexAt_mono (Nat.sub_le _ _)
  · intro hlow
    exact hf.heights.indexAt_of_not_reached fun hc => hlow (Nat.le_trans hc (Nat.sub_le _ _))

theorem rescanFromBlockHeight_versions (hlt : height < db.height) :
    (hf.rescanFromBlockHeight db height).versions.length = db.height - height := by
  unfold rescanFromBlockHeight
  rw [if_neg (Nat.not_le.2 hlt)]
  simp [advance, BlockchainDB.height]

theorem init_follows (h : hf.Follows db₀ height)
    (hrecorded : ∀ i < db.height, db.hfVersions.lookup i = some (hf.heights.versionAt i)) :
    (hf.init db).Follows db db.height := by
  unfold init rescanFromChainHeight
  have hpos := h.windowSize
  rw [if_neg (by split <;> omega)]
  by_cases hempty : db.height = 0
  · have hlarge : ¬ hf.windowSize < db.height := by omega
    rw [rescanFromBlockHeight, if_pos (by omega)]
    refine ⟨h.noVoting, hpos, h.original, ?_, hrecorded⟩
    rw [hempty]
    exact hf.heights.indexAt_zero.symm
  · refine rescan_follows h.noVoting hpos h.original hrecorded ?_
    split <;> omega

/-- The state, for this table and window, is that of a database whose blocks carry the versions of
their heights, and there are votes as soon as there are blocks. -/
structure Healthy (t : ForkTable) (window : ℕ) (hf : HardFork) (db : BlockchainDB) : Prop where
  heights : hf.heights = t
  windowSize : hf.windowSize = window
  follows : hf.Follows db db.height
  carried : CarriedFrom hf.heights 0 db.blocks
  nonempty : db.blocks ≠ [] → hf.versions ≠ []

/-- The window has at most as many versions as it may. -/
def Fits (hf : HardFork) : Prop := hf.versions.length ≤ hf.windowSize

theorem windowOf_ne_nil (hpos : 0 < hf.windowSize) (h : blocks ≠ []) : hf.windowOf blocks ≠ [] := by
  have hlen := length_pos_iff.2 h
  apply ne_nil_of_length_pos
  rw [length_windowOf]
  omega

theorem fits_of_window (h : hf.versions = hf.windowOf blocks) : hf.Fits := by
  rw [Fits, h, length_windowOf]
  exact Nat.min_le_right _ _

@[simp] theorem init_heights (hf : HardFork) (db : BlockchainDB) :
    (hf.init db).heights = hf.heights := by
  unfold init rescanFromChainHeight rescanFromBlockHeight
  split_ifs <;> rfl

@[simp] theorem init_windowSize (hf : HardFork) (db : BlockchainDB) :
    (hf.init db).windowSize = hf.windowSize := by
  unfold init rescanFromChainHeight rescanFromBlockHeight
  split_ifs <;> rfl

/-- `init` is in step with the chain it is given. -/
theorem Follows.init (h : hf.Follows db₀ height) (hcarried : CarriedFrom hf.heights 0 db.blocks)
    (hrecorded : ∀ i < db.height, db.hfVersions.lookup i = some (hf.heights.versionAt i)) :
    Healthy hf.heights hf.windowSize (hf.init db) db ∧ (hf.init db).Fits := by
  have hversions := init_versions h.windowSize db
  refine ⟨⟨init_heights hf db, init_windowSize hf db, init_follows h hrecorded,
    (init_heights hf db).symm ▸ hcarried, fun hne => ?_⟩, ?_⟩
  · rw [hversions]
    exact windowOf_ne_nil h.windowSize hne
  · rw [Fits, hversions, init_windowSize, length_windowOf]
    exact Nat.min_le_right _ _

/-- Adding a block that passes the check. -/
theorem Healthy.add (h : Healthy t window hf db) (hcheck : hf.check info.bl = true) :
    let added := hf.add { db with blocks := db.blocks ++ [info] } info.bl db.height
    Healthy t window added.1 added.2 ∧ added.1.Fits := by
  intro added
  have hfollows : hf.Follows { db with blocks := db.blocks ++ [info] } db.height :=
    ⟨h.follows.noVoting, h.follows.windowSize, h.follows.original, h.follows.sync,
      h.follows.recorded⟩
  have hadd := hfollows.add hcheck
  have hpos := h.follows.windowSize
  have hcarries : info.bl.Carries (hf.heights.versionAt db.blocks.length) := by
    rw [check_iff, h.follows.sync.version] at hcheck
    exact hcheck
  have hadded : added = ((hf.pushVote info.bl).advance (db.height + 1), _) := if_pos hcheck
  have hblocks : added.2.blocks = db.blocks ++ [info] := by rw [hadded]; rfl
  have hheight : added.2.height = db.height + 1 := by
    rw [BlockchainDB.height, hblocks, length_append]
    rfl
  refine ⟨⟨(add_heights ..).trans h.heights, (add_windowSize ..).trans h.windowSize, hheight ▸ hadd,
    ?_, fun _ => ?_⟩, ?_⟩
  · rw [hblocks, add_heights]
    exact h.carried.concat hcarries
  · rw [hadded]
    exact append_ne_nil_of_right_ne_nil _ (cons_ne_nil _ _)
  · rw [hadded, Fits]
    simp only [advance, pushVote, length_append, length_drop, length_singleton]
    omega

theorem reorganizeFromBlockHeight_eq_chain (hf : HardFork) (db : BlockchainDB) (height : ℕ) :
    hf.reorganizeFromBlockHeight db height = hf.reorganizeFromChainHeight db (height + 1) := by
  rw [reorganizeFromChainHeight, if_neg (Nat.succ_ne_zero _), Nat.add_sub_cancel]

variable (h : Healthy t window hf db)

include h

/-- A reorganisation of the recorded versions. -/
theorem Healthy.reorganize (height : ℕ) :
    let r := hf.reorganizeFromChainHeight db height
    Healthy t window r.1 r.2 ∧ (hf.Fits → r.1.Fits) := by
  intro r
  obtain ⟨hfollows, hheights, hversions, -⟩ := h.follows.reorganize h.carried height
  have hblocks : r.2.blocks = db.blocks := (reorganizeFromChainHeight_blocks hf db height).1
  have hheight : r.2.height = db.height := congrArg List.length hblocks
  have hwindow := reorganizeFromChainHeight_windowSize hf db height
  refine ⟨⟨hheights.trans h.heights, hwindow.trans h.windowSize, hheight ▸ hfollows,
      ?_, fun hne => ?_⟩,
    fun hfits => ?_⟩
  · rw [hblocks, hheights]
    exact h.carried
  · rw [hblocks] at hne
    rcases hversions with hsame | hwindow
    · rw [show r = (hf, db) from hsame]
      exact h.nonempty hne
    · rw [hwindow]
      exact windowOf_ne_nil hfollows.windowSize hne
  · rcases hversions with hsame | hwindow
    · rw [show r = (hf, db) from hsame]
      exact hfits
    · exact fits_of_window hwindow

theorem Healthy.rescan (height : ℕ) :
    Healthy t window (hf.rescanFromChainHeight db height) db ∧
      (hf.Fits → (height = 0 ∨ db.height < height ∨ db.height + 1 - height ≤ hf.windowSize) →
        (hf.rescanFromChainHeight db height).Fits) := by
  unfold rescanFromChainHeight
  split_ifs with hzero
  · exact ⟨h, fun hfits _ => hfits⟩
  · by_cases hle : db.height ≤ height - 1
    · rw [rescanFromBlockHeight, if_pos hle]
      exact ⟨h, fun hfits _ => hfits⟩
    · have hlt : height - 1 < db.height := by omega
      have hheights : (hf.rescanFromBlockHeight db (height - 1)).heights = hf.heights := by
        rw [rescanFromBlockHeight, if_neg hle]
        rfl
      have hwindow : (hf.rescanFromBlockHeight db (height - 1)).windowSize = hf.windowSize := by
        rw [rescanFromBlockHeight, if_neg hle]
        rfl
      have hlen : (hf.rescanFromBlockHeight db (height - 1)).versions.length =
          db.height - (height - 1) := rescanFromBlockHeight_versions hlt
      refine ⟨⟨hheights.trans h.heights, hwindow.trans h.windowSize, ?_, hheights.symm ▸ h.carried,
        fun _ => ?_⟩, fun _ hwithin => ?_⟩
      · exact rescan_follows h.follows.noVoting h.follows.windowSize h.follows.original
          h.follows.recorded hlt
      · exact ne_nil_of_length_pos (by omega)
      · rw [Fits]
        omega

/-- Taking the top blocks off. -/
theorem Healthy.popped {hf' : HardFork} {db' : BlockchainDB} {left : ℕ}
    (hblocks : db'.blocks = db.blocks.take left) (hversions : db'.hfVersions = db.hfVersions)
    (hheights : hf'.heights = hf.heights) (hwindow : hf'.windowSize = hf.windowSize)
    (horiginal : hf'.originalVersion = hf.originalVersion) (hsync : hf'.InSync db'.height)
    (hne : hf'.versions ≠ []) : Healthy t window hf' db' := by
  have hle : db'.height ≤ db.height := by
    rw [BlockchainDB.height, hblocks]
    exact length_take_le' _ _
  obtain ⟨heights, original, window, versions, index⟩ := hf'
  subst hheights hwindow horiginal
  refine ⟨h.heights, h.windowSize,
    ⟨h.follows.noVoting, h.follows.windowSize, h.follows.original, hsync, ?_⟩, ?_, fun _ => hne⟩
  · intro i hi
    rw [hversions]
    exact h.follows.recorded i (Nat.lt_of_lt_of_le hi hle)
  · intro i info hi
    rw [hblocks, getElem?_take] at hi
    split_ifs at hi
    exact h.carried i info hi

end HardFork

namespace ForkNode

variable {t : ForkTable} {window : ℕ} {n : ForkNode}

/-- The voting state is in step with the chain. -/
structure Inv (t : ForkTable) (window : ℕ) (n : ForkNode) : Prop where
  tallied : n.fork.Tallied
  healthy : HardFork.Healthy t window n.fork.toHardFork n.db

theorem inv_init {fork : VotingFork} {db₀ db : BlockchainDB} {height : ℕ}
    (h : fork.toHardFork.Follows db₀ height)
    (hcarried : HardFork.CarriedFrom fork.heights 0 db.blocks)
    (hrecorded : ∀ i < db.height, db.hfVersions.lookup i = some (fork.heights.versionAt i)) :
    Inv fork.heights fork.windowSize ⟨fork.init db, db⟩ ∧ (fork.init db).toHardFork.Fits := by
  obtain ⟨hinit, htallied⟩ := fork.init_eq db
  obtain ⟨hhealthy, hfits⟩ := h.init hcarried hrecorded
  rw [← hinit] at hhealthy hfits
  exact ⟨⟨htallied, hhealthy⟩, hfits⟩

theorem inv_reorganize (h : Inv t window n) (height : ℕ) :
    Inv t window (n.step (.reorganizeFromBlockHeight height)) ∧
      (n.fork.toHardFork.Fits →
        (n.step (.reorganizeFromBlockHeight height)).fork.toHardFork.Fits) := by
  obtain ⟨hfork, hdb, htallied⟩ := VotingFork.reorganizeFromBlockHeight_eq
    h.healthy.follows.windowSize h.tallied n.db height
  obtain ⟨hhealthy, hfits⟩ := h.healthy.reorganize (height + 1)
  rw [← HardFork.reorganizeFromBlockHeight_eq_chain, ← hfork, ← hdb] at hhealthy
  rw [← HardFork.reorganizeFromBlockHeight_eq_chain, ← hfork] at hfits
  exact ⟨⟨htallied, hhealthy⟩, hfits⟩

theorem inv_popped (h : Inv t window n) (nblocks : ℕ) :
    Inv t window (n.step (.onBlockPopped nblocks)) ∧
      (n.fork.toHardFork.Fits → (n.step (.onBlockPopped nblocks)).fork.toHardFork.Fits) := by
  simp only [step]
  split_ifs with hlt
  · have hne : n.fork.versions ≠ [] := h.healthy.nonempty (ne_nil_of_length_pos (by
      have : n.db.height = n.db.blocks.length := rfl
      omega))
    generalize hdb : ({ n.db with blocks := n.db.blocks.take (n.db.height - nblocks) } :
      BlockchainDB) = db
    have hblocks : db.blocks = n.db.blocks.take (n.db.height - nblocks) := by rw [← hdb]
    have hversions : db.hfVersions = n.db.hfVersions := by rw [← hdb]
    obtain ⟨htallied, hlen, hheights, hwindow, horiginal⟩ :=
      VotingFork.popVersions_spec db db.height nblocks h.tallied hne
    unfold VotingFork.onBlockPopped
    split_ifs
    · exact ⟨h, id⟩
    · simp only []
      refine ⟨⟨htallied, ?_⟩, fun hfits => ?_⟩
      · refine h.healthy.popped hblocks hversions hheights hwindow horiginal rfl ?_
        exact ne_nil_of_length_pos (hlen ▸ length_pos_iff.2 hne)
      · unfold HardFork.Fits at hfits ⊢
        simp only [hlen, hwindow]
        exact hfits
  · exact ⟨h, id⟩

/-- Every operation keeps the voting state in step. -/
theorem inv_step (h : Inv t window n) (op : ForkOp) :
    Inv t window (n.step op) ∧
      (n.fork.toHardFork.Fits → n.Within op → (n.step op).fork.toHardFork.Fits) := by
  have hfollows := h.healthy.follows
  have hinit : ∀ {db : BlockchainDB}, HardFork.CarriedFrom n.fork.heights 0 db.blocks →
      (∀ i < db.height, db.hfVersions.lookup i = some (n.fork.heights.versionAt i)) →
      Inv t window ⟨n.fork.init db, db⟩ ∧ (n.fork.init db).toHardFork.Fits := by
    intro db hcarried hrecorded
    have := inv_init hfollows hcarried hrecorded
    rwa [h.healthy.heights, h.healthy.windowSize] at this
  cases op with
  | init => exact (hinit h.healthy.carried hfollows.recorded).imp_right fun hfits _ _ => hfits
  | reset =>
    refine (hinit ?_ ?_).imp_right fun hfits _ _ => hfits
    · exact fun i info hi => absurd hi (by simp)
    · exact fun i hi => absurd hi (Nat.not_lt_zero i)
  | add info =>
    simp only [step]
    split_ifs with hcheck
    · obtain ⟨hfork, hdb, htallied⟩ := VotingFork.add_eq hfollows.windowSize h.tallied
        { n.db with blocks := n.db.blocks ++ [info] } info.bl n.db.height
      obtain ⟨hhealthy, hfits⟩ := h.healthy.add hcheck
      rw [← hfork, ← hdb] at hhealthy
      rw [← hfork] at hfits
      exact ⟨⟨htallied, hhealthy⟩, fun _ _ => hfits⟩
    · exact ⟨h, fun hfits _ => hfits⟩
  | onBlockPopped nblocks => exact (inv_popped h nblocks).imp_right fun hf hfits _ => hf hfits
  | reorganizeFromBlockHeight height =>
    exact (inv_reorganize h height).imp_right fun hf hfits _ => hf hfits
  | reorganizeFromChainHeight height =>
    cases height with
    | zero => exact ⟨h, fun hfits _ => hfits⟩
    | succ height => exact (inv_reorganize h height).imp_right fun hf hfits _ => hf hfits
  | rescanFromChainHeight height =>
    obtain ⟨hfork, htallied⟩ := VotingFork.rescanFromChainHeight_eq h.tallied n.db height
    obtain ⟨hhealthy, hfits⟩ := h.healthy.rescan height
    rw [← hfork] at hhealthy hfits
    exact ⟨⟨htallied, hhealthy⟩, hfits⟩

/-- Every run keeps the voting state in step. -/
theorem inv_run : ∀ (ops : List ForkOp) {n : ForkNode}, Inv t window n →
    Inv t window (n.run ops) ∧
      (n.fork.toHardFork.Fits → n.WithinRun ops → (n.run ops).fork.toHardFork.Fits)
  | [], _, h => ⟨h, fun hfits _ => hfits⟩
  | op :: ops, n, h => by
    obtain ⟨hstep, hfits⟩ := inv_step h op
    obtain ⟨hrun, hfits'⟩ := inv_run ops hstep
    exact ⟨hrun, fun hn hwithin => hfits' (hfits hn hwithin.1) hwithin.2⟩

/-- A node starts with its voting state in step. -/
theorem inv_start {forks : List Fork} (hpos : 0 < window) (hz : ∀ f ∈ forks, f.threshold = 0) :
    Inv (.ofAdded forks) window (start forks window) ∧
      (start forks window).fork.toHardFork.Fits := by
  obtain ⟨hnoVoting, hversions⟩ := ForkTable.ofAdded_spec hz
  let fork : HardFork :=
    { heights := .ofAdded forks, windowSize := window,
      currentForkIndex := ⟨0, (ForkTable.ofAdded forks).length_pos⟩ }
  have hempty : ∀ i < 0, ([] : List (ℕ × ℕ)).lookup i = some (fork.heights.versionAt i) :=
    fun i hi => absurd hi (Nat.not_lt_zero i)
  have hfollows : fork.Follows { blocks := [] } 0 :=
    ⟨hnoVoting, hpos, hversions _ (get_mem _ _), (ForkTable.indexAt_zero _).symm, hempty⟩
  refine @inv_init ⟨fork, fun _ => 0⟩ _ { blocks := [] } _ hfollows ?_ hempty
  exact fun i info hi => absurd hi (by simp)

/-- Whatever is called, the current version is that of the last fork that the height of the database
has reached, the counters are those of the deque, and while no rescan reads more than the window
takes the deque is no longer than the window. -/
theorem run_version {forks : List Fork} {windowSize : ℕ} (hpos : 0 < windowSize)
    (hz : ∀ f ∈ forks, f.threshold = 0) (ops : List ForkOp)
    (hwithin : (start forks windowSize).WithinRun ops) :
    let n := (start forks windowSize).run ops
    n.fork.getCurrentVersion = (ForkTable.ofAdded forks).versionAt n.db.height ∧
      (∀ version, n.fork.lastVersions version = n.fork.versions.count version) ∧
      n.fork.versions.length ≤ windowSize := by
  intro n
  obtain ⟨hstart, hfits⟩ := inv_start hpos hz
  obtain ⟨hrun, hfits'⟩ := inv_run ops hstart
  refine ⟨?_, hrun.tallied, ?_⟩
  · rw [hrun.healthy.follows.sync.version, hrun.healthy.heights]
  · exact Nat.le_trans (hfits' hfits hwithin) (Nat.le_of_eq hrun.healthy.windowSize)

def versionBlock (version : ℕ) : BlockInfo where
  bl := ⟨version, version, 0, 0, 0, ⟨1, 0, [], [], [], ⟨.null, 0, [], [], [], []⟩, false⟩, []⟩
  txs := []
  blockWeight := 0
  longTermBlockWeight := 0
  cumulativeDifficulty := 0
  alreadyGeneratedCoins := 0

/-- Over the second fork and back again. -/
theorem run_version_overFork :
    ((start [⟨1, 1, 0⟩, ⟨2, 2, 0⟩] 2).run [.add (versionBlock 1), .add (versionBlock 1),
      .add (versionBlock 2), .onBlockPopped 2, .rescanFromChainHeight 1]).fork.getCurrentVersion =
        1 :=
  (run_version (by decide) (by decide) _ (by decide)).1

/-- A rescan of two blocks with a window of one. -/
theorem rescan_not_within :
    1 < ((start [] 1).run [.add (versionBlock 1), .add (versionBlock 1),
      .rescanFromChainHeight 1]).fork.versions.length := by
  decide

section Popped

variable {n : ForkNode} {info : BlockInfo}

theorem step_onBlockPopped_one {height : ℕ} (hheight : n.db.height = height + 1)
    (hpos : 0 < height) : (n.step (.onBlockPopped 1)).fork =
      { n.fork.popVersion (n.db.getHardForkVersion height) with
        currentForkIndex := n.fork.heights.indexAt height } := by
  have hlen : ({ n.db with blocks := n.db.blocks.take height } : BlockchainDB).height = height :=
    length_take_of_le (by unfold BlockchainDB.height at hheight; omega)
  simp only [step]
  rw [if_pos (by omega), hheight, Nat.add_sub_cancel, VotingFork.onBlockPopped, hlen,
    if_neg (by omega)]
  rfl

/-- The version recorded for the popped block takes the place of the one that `add` dropped. -/
theorem pop_add (hpos : 0 < n.fork.windowSize) (h : n.fork.Tallied) (hne : n.db.blocks ≠ [])
    (hcheck : n.fork.check info.bl = true) :
    ∃ lastVersions, ((n.step (.add info)).step (.onBlockPopped 1)).fork = { n.fork with
      versions := n.fork.getCurrentVersion ::
        n.fork.versions.drop (n.fork.versions.length + 1 - n.fork.windowSize)
      lastVersions
      currentForkIndex := n.fork.heights.indexAt n.db.height } ∧
    Histogram.Of lastVersions (n.fork.getCurrentVersion ::
      n.fork.versions.drop (n.fork.versions.length + 1 - n.fork.windowSize)) := by
  obtain ⟨hdrop, htrim⟩ := Histogram.trim_eq hpos n.fork.versions h
  rw [hdrop] at htrim
  refine ⟨_, ?_, (htrim.concat (n.fork.getEffectiveVersion info.bl.vote)).dropLast.cons _⟩
  have hadd : n.step (.add info) =
      ⟨(n.fork.popFront.pushBack (n.fork.getEffectiveVersion info.bl.vote)).advance
          (n.db.height + 1),
        { n.db with blocks := n.db.blocks ++ [info] }.setHardForkVersion n.db.height
          n.fork.getCurrentVersion⟩ := by
    simp only [step, VotingFork.add, hcheck, if_true]
  have hlen : (n.step (.add info)).db.height = n.db.height + 1 := by
    rw [hadd]
    exact length_append
  rw [step_onBlockPopped_one hlen (length_pos_iff.2 hne), hadd]
  simp [VotingFork.popVersion, VotingFork.advance, VotingFork.pushBack, VotingFork.popFront, hdrop,
    BlockchainDB.getHardForkVersion, BlockchainDB.setHardForkVersion]

/-- Popping undoes an addition exactly when the window is full, its oldest version is the current
one, and the fork index is that of the height. -/
theorem pop_add_iff (hpos : 0 < n.fork.windowSize) (h : n.fork.Tallied) (hne : n.db.blocks ≠ [])
    (hcheck : n.fork.check info.bl = true) :
    ((n.step (.add info)).step (.onBlockPopped 1)).fork = n.fork ↔
      n.fork.versions.length = n.fork.windowSize ∧
        n.fork.versions.head? = some n.fork.getCurrentVersion ∧
        n.fork.currentForkIndex = n.fork.heights.indexAt n.db.height := by
  obtain ⟨lastVersions, heq, hof⟩ := pop_add hpos h hne hcheck
  rw [heq]
  constructor
  · intro hfork
    have hversions := congrArg (·.versions) hfork
    have hindex := congrArg (·.currentForkIndex.val) hfork
    have hlen := congrArg length hversions
    simp only [length_cons, length_drop] at hlen hversions
    refine ⟨by omega, by rw [← hversions, head?_cons], (Fin.ext hindex).symm⟩
  · rintro ⟨hlen, hhead, hindex⟩
    have hone : n.fork.versions.length + 1 - n.fork.windowSize = 1 := by omega
    have hversions : n.fork.getCurrentVersion :: n.fork.versions.drop 1 = n.fork.versions := by
      rw [drop_one]
      exact cons_head?_tail hhead
    rw [hone, hversions] at hof
    have hlast : lastVersions = n.fork.lastVersions := funext fun v => (hof v).trans (h v).symm
    rw [hone, hversions, ← hindex, hlast]

def filling (blocks : ℕ) : ForkNode :=
  (start [⟨1, 0, 0⟩] 2).run (replicate blocks (.add (versionBlock 1)))

theorem pop_add_iff_full :
    (((filling 2).step (.add (versionBlock 1))).step (.onBlockPopped 1)).fork = (filling 2).fork :=
  (pop_add_iff (by decide) (inv_run _ (inv_start (by decide) (by decide)).1).1.tallied (by decide)
    (by decide)).2 (by decide)

/-- While the window fills up, a block added and popped leaves a vote behind. -/
theorem pop_add_filling : (filling 1).fork.versions = [1] ∧
    (((filling 1).step (.add (versionBlock 1))).step (.onBlockPopped 1)).fork.versions =
      [1, 1] := by
  decide

end Popped

end ForkNode

end Nerva
