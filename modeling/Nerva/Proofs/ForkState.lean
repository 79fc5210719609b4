import Nerva.Lib.Lists
import Nerva.Proofs.HardFork

/-!
# The hard fork state follows the chain

On a chain whose blocks carry the versions their heights ask for, the current fork, the recorded
versions and the window are those of the chain. Adding a block keeps all three. Popping one spoils
the window, and reorganising from any height builds it again.
-/

namespace Nerva

open List

/-- The block has the version and votes for it or a later one. -/
def Block.Carries (b : Block) (version : ℕ) : Prop := b.majorVersion = version ∧ version ≤ b.vote

namespace HardFork

variable {hf : HardFork} {db : BlockchainDB} {b : Block} {height : ℕ} {infos : List BlockInfo}
  {t : ForkTable}

theorem check_iff : hf.check b = true ↔ b.Carries hf.getCurrentVersion := by
  simp [check, doCheck, Block.Carries]

@[simp] theorem add_heights (hf : HardFork) (db : BlockchainDB) (b : Block) (height : ℕ) :
    (hf.add db b height).1.heights = hf.heights := by
  rw [add]
  split <;> rfl

/-- The effective versions of the last blocks. -/
def windowOf (hf : HardFork) (blocks : List BlockInfo) : List ℕ :=
  (blocks.drop (blocks.length - hf.windowSize)).map fun b => hf.getEffectiveVersion b.bl.vote

theorem length_windowOf (hf : HardFork) (blocks : List BlockInfo) :
    (hf.windowOf blocks).length = min blocks.length hf.windowSize := by
  rw [windowOf, length_map, length_drop]
  omega

/-- `init` reads the window from the chain. -/
theorem init_versions (hpos : 0 < hf.windowSize) (db : BlockchainDB) :
    (hf.init db).versions = hf.windowOf db.blocks := by
  have hheight : db.height = db.blocks.length := rfl
  unfold init rescanFromChainHeight rescanFromBlockHeight windowOf
  by_cases hlarge : hf.windowSize < db.height
  · rw [if_pos hlarge, if_neg (by omega), if_neg (by omega)]
    have hstart : db.height - (hf.windowSize - 1) - 1 = db.blocks.length - hf.windowSize := by omega
    rw [hstart]
    rfl
  · have hall : db.blocks.length - hf.windowSize = 0 := by omega
    rw [if_neg hlarge, if_neg Nat.one_ne_zero, hall]
    split
    · rename_i hempty
      have hnil : db.blocks = [] := eq_nil_of_length_eq_zero (by omega)
      rw [hnil]
      rfl
    · rfl

/-- A vote moves the window on. -/
theorem pushVote_versions (hpos : 0 < hf.windowSize) {blocks : List BlockInfo}
    (h : hf.versions = hf.windowOf blocks) (info : BlockInfo) :
    (hf.pushVote info.bl).versions = hf.windowOf (blocks ++ [info]) := by
  have hlen := hf.length_windowOf blocks
  have hdrop : (blocks ++ [info]).length - hf.windowSize ≤ blocks.length := by
    rw [length_append, length_singleton]
    omega
  have hstart : blocks.length - hf.windowSize + ((hf.windowOf blocks).length + 1 - hf.windowSize) =
      (blocks ++ [info]).length - hf.windowSize := by
    rw [length_append, length_singleton]
    omega
  calc (hf.pushVote info.bl).versions
      = (hf.windowOf blocks).drop ((hf.windowOf blocks).length + 1 - hf.windowSize) ++
          [hf.getEffectiveVersion info.bl.vote] := by rw [pushVote, h]
    _ = ((blocks.drop ((blocks ++ [info]).length - hf.windowSize)) ++ [info]).map
          fun b => hf.getEffectiveVersion b.bl.vote := by
        rw [← hstart, map_append, ← drop_drop, map_drop]
        rfl
    _ = hf.windowOf (blocks ++ [info]) := by
        rw [windowOf, drop_append_of_le_length hdrop]

/-- The fork index and the recorded versions are those of a chain of this height. -/
structure Follows (hf : HardFork) (db : BlockchainDB) (height : ℕ) : Prop where
  noVoting : hf.heights.NoVoting
  windowSize : 0 < hf.windowSize
  original : hf.originalVersion ≤ (hf.heights.forks.get hf.heights.first).version
  sync : hf.InSync height
  recorded : ∀ i < height, db.hfVersions.lookup i = some (hf.heights.versionAt i)

/-- Adding a block keeps the state in step. -/
theorem Follows.add (h : hf.Follows db height) (hcheck : hf.check b = true) :
    (hf.add db b height).1.Follows (hf.add db b height).2 (height + 1) := by
  have hsync : (hf.add db b height).1.InSync (height + 1) := add_inSync h.noVoting h.sync hcheck
  rw [HardFork.add, if_pos hcheck] at hsync ⊢
  refine ⟨h.noVoting, h.windowSize, h.original, hsync, fun i hi => ?_⟩
  rw [BlockchainDB.setHardForkVersion, lookup_cons]
  by_cases heq : i = height
  · subst heq
    rw [beq_self_eq_true, h.sync.version]
    rfl
  · rw [beq_false_of_ne heq]
    exact h.recorded i (by omega)

/-- The blocks carry the versions of their heights. -/
def CarriedFrom (t : ForkTable) (height : ℕ) (infos : List BlockInfo) : Prop :=
  ∀ (i : ℕ) (info : BlockInfo), infos[i]? = some info → info.bl.Carries (t.versionAt (height + i))

theorem CarriedFrom.tail {info : BlockInfo} (h : CarriedFrom t height (info :: infos)) :
    CarriedFrom t (height + 1) infos := by
  intro i info' hi
  rw [Nat.add_right_comm]
  exact h (i + 1) info' hi

theorem CarriedFrom.concat {info : BlockInfo} (h : CarriedFrom t 0 infos)
    (hinfo : info.bl.Carries (t.versionAt infos.length)) : CarriedFrom t 0 (infos ++ [info]) := by
  intro i info' hi
  rcases Lists.of_getElem?_concat hi with hi | ⟨rfl, rfl⟩
  · exact h i info' hi
  · rwa [Nat.zero_add]

/-- Adding blocks one after another keeps the state in step. -/
theorem Follows.addAll : ∀ (infos done : List BlockInfo) {height : ℕ} {hf : HardFork}
    {db : BlockchainDB}, hf.Follows db height → CarriedFrom hf.heights height infos →
    hf.versions = hf.windowOf done →
    (addAll height infos (hf, db)).1.Follows (HardFork.addAll height infos (hf, db)).2
        (height + infos.length) ∧
      (HardFork.addAll height infos (hf, db)).1.heights = hf.heights ∧
      (HardFork.addAll height infos (hf, db)).1.versions =
        (HardFork.addAll height infos (hf, db)).1.windowOf (done ++ infos)
  | [], done, height, hf, db, h, _, hwindow => ⟨h, rfl, by rw [append_nil]; exact hwindow⟩
  | info :: infos, done, height, hf, db, h, hcarried, hwindow => by
    have hcheck : hf.check info.bl = true := by
      rw [check_iff, h.sync.version]
      exact hcarried 0 info rfl
    have hnext : (hf.add db info.bl height).1.versions =
        (hf.add db info.bl height).1.windowOf (done ++ [info]) := by
      rw [HardFork.add, if_pos hcheck]
      exact pushVote_versions h.windowSize hwindow info
    obtain ⟨hfollows, hheights, hversions⟩ := Follows.addAll infos (done ++ [info]) (h.add hcheck)
      ((add_heights hf db info.bl height).symm ▸ hcarried.tail) hnext
    rw [Nat.add_right_comm] at hfollows
    rw [append_assoc] at hversions
    exact ⟨hfollows, hheights.trans (add_heights hf db info.bl height), hversions⟩

theorem lowerFrom_version (t : ForkTable) (startVersion : ℕ) :
    ∀ {n : ℕ} (hn : n < t.forks.length), (lowerFrom t startVersion n hn).val = 0 ∨
      (t.forks.get (lowerFrom t startVersion n hn)).version ≤ startVersion
  | 0, _ => .inl rfl
  | n + 1, hn => by
    rw [lowerFrom]
    split
    · exact lowerFrom_version t startVersion (by omega)
    · exact .inr (Nat.le_of_not_lt ‹_›)

theorem lowerFrom_le_of_version {startVersion : ℕ} {i : Fin t.forks.length}
    (h : startVersion ≤ (t.forks.get i).version) {n : ℕ} (hn : n < t.forks.length) :
    lowerFrom t startVersion n hn ≤ i := by
  rcases lowerFrom_version t startVersion hn with hzero | hle
  · exact Fin.le_def.mpr (by omega)
  · by_contra hlt
    exact absurd (t.version_lt (Fin.not_le.mp hlt)) (by omega)

theorem Follows.startVersion_le (h : hf.Follows db db.height) (hlt : height < db.height) :
    (if height = 0 then hf.originalVersion else db.getHardForkVersion height) ≤
      (hf.heights.forks.get (hf.heights.indexAt height)).version := by
  split
  · refine Nat.le_trans h.original ?_
    have hfirst : hf.heights.first.val ≤ (hf.heights.indexAt height).val := Nat.zero_le _
    rcases Nat.lt_or_eq_of_le hfirst with hlt | heq
    · exact Nat.le_of_lt (hf.heights.version_lt hlt)
    · exact Nat.le_of_eq (by rw [Fin.ext heq])
  · rw [BlockchainDB.getHardForkVersion, h.recorded height hlt]
    exact Nat.le_refl _

/-- A reorganisation starts in step with the height it goes back to. -/
theorem Follows.lowered (h : hf.Follows db db.height) (hlt : height < db.height) :
    ((hf.lowered db height).advance (height + 1)).Follows db (height + 1) := by
  have hle := lowerFrom_le_of_version (h.startVersion_le hlt) hf.currentForkIndex.isLt
  refine ⟨h.noVoting, h.windowSize, h.original, ?_, fun i hi => h.recorded i (by omega)⟩
  have hz : (hf.lowered db height).heights.NoVoting := h.noVoting
  refine advance_inSync hz ?_ ?_
  · exact Fin.le_trans hle (hf.heights.indexAt_mono (Nat.le_succ height))
  · intro hlow
    rw [hf.heights.indexAt_of_not_reached fun hc => hlow (Nat.le_succ_of_le hc)] at hle
    exact Fin.ext (Nat.le_zero.mp hle)

theorem lowered_versions (hpos : 0 < hf.windowSize) (hlt : height < db.height) :
    ((hf.lowered db height).advance (height + 1)).versions =
      ((hf.lowered db height).advance (height + 1)).windowOf (db.blocks.take (height + 1)) := by
  have hlen : (db.blocks.take (height + 1)).length = height + 1 := by
    rw [length_take]
    exact Nat.min_eq_left hlt
  have hstart : height - (hf.windowSize - 1) = height + 1 - hf.windowSize := by omega
  rw [windowOf, hlen]
  unfold HardFork.lowered
  simp only [hstart]
  rfl

theorem CarriedFrom.drop (h : CarriedFrom t 0 infos) (n : ℕ) : CarriedFrom t n (infos.drop n) := by
  intro i info hi
  rw [getElem?_drop] at hi
  have := h (n + i) info hi
  rwa [Nat.zero_add] at this

/-- A reorganisation keeps the state in step. -/
theorem Follows.reorganize (h : hf.Follows db db.height)
    (hcarried : CarriedFrom hf.heights 0 db.blocks) (height : ℕ) :
    (hf.reorganizeFromChainHeight db height).1.Follows (hf.reorganizeFromChainHeight db height).2
        db.height ∧
      (hf.reorganizeFromChainHeight db height).1.heights = hf.heights ∧
      (hf.reorganizeFromChainHeight db height = (hf, db) ∨
        (hf.reorganizeFromChainHeight db height).1.versions =
          (hf.reorganizeFromChainHeight db height).1.windowOf db.blocks) ∧
      (0 < height → height ≤ db.height →
        (hf.reorganizeFromChainHeight db height).1.versions =
          (hf.reorganizeFromChainHeight db height).1.windowOf db.blocks) := by
  unfold reorganizeFromChainHeight
  split
  · exact ⟨h, rfl, .inl rfl, fun hpos => absurd hpos (by omega)⟩
  · by_cases hlt : db.height ≤ height - 1
    · rw [reorganizeFromBlockHeight, if_pos hlt]
      exact ⟨h, rfl, .inl rfl, fun _ hle => absurd hle (by omega)⟩
    · have hlt' : height - 1 < db.height := by omega
      obtain ⟨hfollows, hheights, hversions⟩ := Follows.addAll (db.blocks.drop (height - 1 + 1))
        (db.blocks.take (height - 1 + 1)) (h.lowered hlt') (hcarried.drop _)
        (lowered_versions h.windowSize hlt')
      have hlen : height - 1 + 1 + (db.blocks.drop (height - 1 + 1)).length = db.height := by
        rw [length_drop]
        have : db.height = db.blocks.length := rfl
        omega
      rw [hlen] at hfollows
      rw [take_append_drop] at hversions
      rw [reorganizeFromBlockHeight, if_neg hlt]
      exact ⟨hfollows, hheights, .inr hversions, fun _ _ => hversions⟩

end HardFork

end Nerva
