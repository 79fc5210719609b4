import Nerva.HardFork

/-!
# The current fork version is a function of the chain height

With all thresholds zero, adding a block, popping one and reorganising keep the current fork index
at the largest fork whose height is reached.
-/

namespace Nerva

namespace ForkTable

variable (t : ForkTable) {height : ℕ} {i : Fin t.forks.length} {h h' : ℕ} {j : Fin t.forks.length}

theorem indexFrom_of_reached : ∀ {n k : ℕ} (hn : n < t.forks.length) (hk : k ≤ n),
    (t.forks.get ⟨k, by omega⟩).height ≤ height → k ≤ (t.indexFrom height n hn).val
  | 0, k, _, hk, _ => by simpa [indexFrom] using hk
  | n + 1, k, hn, hk, h => by
    rw [indexFrom]
    split
    · exact hk
    · rename_i hnot
      have hne : k ≠ n + 1 := by
        rintro rfl
        exact hnot h
      exact indexFrom_of_reached (by omega) (by omega) h

theorem reached_of_indexFrom : ∀ {n : ℕ} (hn : n < t.forks.length),
    (t.indexFrom height n hn).val ≠ 0 →
      (t.forks.get (t.indexFrom height n hn)).height ≤ height
  | 0, _, h => by simp [indexFrom] at h
  | n + 1, hn, h => by
    rw [indexFrom] at h ⊢
    split
    · assumption
    · rename_i hnot
      rw [if_neg hnot] at h
      exact reached_of_indexFrom (by omega) h

/-- A fork that is reached is not above the index of the height. -/
theorem le_indexAt (h : (t.forks.get i).height ≤ height) : i ≤ t.indexAt height :=
  t.indexFrom_of_reached (k := i.val) _ (by have := i.isLt; omega) h

theorem reached_of_indexAt (h : (t.indexAt height).val ≠ 0) :
    (t.forks.get (t.indexAt height)).height ≤ height :=
  t.reached_of_indexFrom _ h

/-- The index grows with the height. -/
theorem indexAt_mono (hle : h ≤ h') : t.indexAt h ≤ t.indexAt h' := by
  by_cases hz : (t.indexAt h).val = 0
  · rw [Fin.le_def, hz]
    exact Nat.zero_le _
  · exact t.le_indexAt (Nat.le_trans (t.reached_of_indexAt hz) hle)

theorem height_mono (hij : i ≤ j) : (t.forks.get i).height ≤ (t.forks.get j).height := by
  rcases Nat.lt_or_eq_of_le (Fin.le_def.mp hij) with h | h
  · exact Nat.le_of_lt (List.pairwise_iff_getElem.mp t.increasing i j i.isLt j.isLt h).2
  · exact Nat.le_of_eq (by rw [Fin.ext h])

theorem version_lt (hij : i < j) : (t.forks.get i).version < (t.forks.get j).version :=
  (List.pairwise_iff_getElem.mp t.increasing i j i.isLt j.isLt hij).1

theorem versionAt_mono (hle : h ≤ h') : t.versionAt h ≤ t.versionAt h' := by
  rcases Nat.lt_or_eq_of_le (Fin.le_def.mp (t.indexAt_mono hle)) with hlt | heq
  · exact Nat.le_of_lt (t.version_lt hlt)
  · exact Nat.le_of_eq (by rw [versionAt, versionAt, Fin.ext heq])

def first : Fin t.forks.length := ⟨0, t.length_pos⟩

theorem indexAt_of_not_reached (h : ¬(t.forks.get t.first).height ≤ height) :
    t.indexAt height = t.first := by
  by_contra hne
  have hz : (t.indexAt height).val ≠ 0 := fun hz => hne (Fin.ext hz)
  exact h (Nat.le_trans (t.height_mono (Nat.zero_le _)) (t.reached_of_indexAt hz))

end ForkTable

namespace HardFork

variable {hf : HardFork} {height : ℕ} {height' : ℕ} {db : BlockchainDB}

/-- The index is that of the height. -/
def InSync (hf : HardFork) (height : ℕ) : Prop :=
  hf.currentForkIndex = hf.heights.indexAt height

theorem InSync.version (h : hf.InSync height) :
    hf.getCurrentVersion = hf.heights.versionAt height := by
  rw [getCurrentVersion, h]
  rfl

theorem votedFrom_of_reached (hz : hf.heights.NoVoting)
    (hfirst : (hf.heights.forks.get hf.heights.first).height ≤ height) :
    ∀ {n votes : ℕ} (hn : n < hf.heights.forks.length),
      hf.votedFrom height (n + 1) hn votes = hf.heights.indexFrom height n hn
  | 0, _, hn => by
    have hth := hz _ (List.get_mem hf.heights.forks ⟨0, hn⟩)
    rw [votedFrom, ForkTable.indexFrom, if_pos]
    exact ⟨hfirst, by rw [hth]; omega⟩
  | n + 1, votes, hn => by
    have hth := hz _ (List.get_mem hf.heights.forks ⟨n + 1, hn⟩)
    rw [votedFrom, ForkTable.indexFrom]
    by_cases h : (hf.heights.forks.get ⟨n + 1, hn⟩).height ≤ height
    · rw [if_pos ⟨h, by rw [hth]; omega⟩, if_pos h]
    · rw [if_neg (fun hc => h hc.1), if_neg h]
      exact votedFrom_of_reached hz hfirst (by omega)

theorem votedFrom_of_not_reached
    (hfirst : ¬(hf.heights.forks.get hf.heights.first).height ≤ height) :
    ∀ {n votes : ℕ} (hn : n ≤ hf.heights.forks.length),
      hf.votedFrom height n hn votes = hf.currentForkIndex
  | 0, _, _ => rfl
  | n + 1, votes, hn => by
    have h : ¬(hf.heights.forks.get ⟨n, hn⟩).height ≤ height := fun hc =>
      hfirst (Nat.le_trans (hf.heights.height_mono (Nat.zero_le _)) hc)
    rw [votedFrom, if_neg (fun hc => h hc.1)]
    exact votedFrom_of_not_reached hfirst (by omega)

/-- Without voting the height alone decides, once the first fork is reached. -/
theorem getVotedForkIndex_eq (hz : hf.heights.NoVoting) (height : ℕ) :
    hf.getVotedForkIndex height =
      if (hf.heights.forks.get hf.heights.first).height ≤ height then hf.heights.indexAt height
      else hf.currentForkIndex := by
  split
  · rename_i h
    have hpos := hf.heights.length_pos
    have hlen : hf.heights.forks.length = hf.heights.forks.length - 1 + 1 := by omega
    have hvoted : hf.votedFrom height (hf.heights.forks.length - 1 + 1) (by omega) 0 = _ :=
      votedFrom_of_reached hz h (by omega)
    rw [ForkTable.indexAt, ← hvoted, getVotedForkIndex]
    congr 1
  · rename_i h
    exact votedFrom_of_not_reached h _

/-- Advancing brings the index to that of the height. -/
theorem advance_inSync (hz : hf.heights.NoVoting)
    (h : hf.currentForkIndex ≤ hf.heights.indexAt height)
    (hlow : ¬(hf.heights.forks.get hf.heights.first).height ≤ height →
      hf.currentForkIndex = hf.heights.first) :
    (hf.advance height).InSync height := by
  rw [InSync, advance]
  simp only [getVotedForkIndex_eq hz]
  by_cases hfirst : (hf.heights.forks.get hf.heights.first).height ≤ height
  · rw [if_pos hfirst]
    split
    · rfl
    · exact Fin.le_antisymm h (Fin.not_lt.mp ‹_›)
  · rw [if_neg hfirst, if_neg (Fin.lt_irrefl _), hlow hfirst,
      hf.heights.indexAt_of_not_reached hfirst]

theorem InSync.le_indexAt (h : hf.InSync height) (hle : height ≤ height') :
    hf.currentForkIndex ≤ hf.heights.indexAt height' := by
  rw [h]
  exact hf.heights.indexAt_mono hle

theorem InSync.eq_first (h : hf.InSync height) (hle : height ≤ height')
    (hlow : ¬(hf.heights.forks.get hf.heights.first).height ≤ height') :
    hf.currentForkIndex = hf.heights.first := by
  rw [h]
  exact hf.heights.indexAt_of_not_reached fun hc => hlow (Nat.le_trans hc hle)

/-- Adding a block keeps the index in step. -/
theorem add_inSync (hz : hf.heights.NoVoting) {b : Block} (h : hf.InSync height)
    (hcheck : hf.check b = true) : (hf.add db b height).1.InSync (height + 1) := by
  rw [add, if_pos hcheck]
  refine advance_inSync (?_ : (hf.pushVote b).heights.NoVoting) ?_ ?_
  · exact hz
  · exact h.le_indexAt (Nat.le_succ _)
  · exact h.eq_first (Nat.le_succ _)

/-- Popping blocks sets the index to that of the height. -/
theorem onBlockPopped_inSync (hf : HardFork) (db : BlockchainDB) :
    (hf.onBlockPopped db).InSync db.height := rfl

theorem addAll_blocks : ∀ (height : ℕ) (infos : List BlockInfo) (hf : HardFork) (db : BlockchainDB),
    (addAll height infos (hf, db)).2.blocks = db.blocks ∧
      (addAll height infos (hf, db)).2.altBlocks = db.altBlocks
  | _, [], _, _ => ⟨rfl, rfl⟩
  | height, b :: infos, hf, db => by
    have hadd : (hf.add db b.bl height).2.blocks = db.blocks ∧
        (hf.add db b.bl height).2.altBlocks = db.altBlocks := by
      rw [add]
      split <;> exact ⟨rfl, rfl⟩
    have ih := addAll_blocks (height + 1) infos (hf.add db b.bl height).1 (hf.add db b.bl height).2
    exact ⟨ih.1.trans hadd.1, ih.2.trans hadd.2⟩

theorem reorganizeFromChainHeight_blocks (hf : HardFork) (db : BlockchainDB) (height : ℕ) :
    (hf.reorganizeFromChainHeight db height).2.blocks = db.blocks ∧
      (hf.reorganizeFromChainHeight db height).2.altBlocks = db.altBlocks := by
  unfold reorganizeFromChainHeight reorganizeFromBlockHeight
  split
  · exact ⟨rfl, rfl⟩
  · split
    · exact ⟨rfl, rfl⟩
    · exact addAll_blocks _ _ _ _

@[simp] theorem add_windowSize (hf : HardFork) (db : BlockchainDB) (b : Block) (height : ℕ) :
    (hf.add db b height).1.windowSize = hf.windowSize := by
  rw [add]
  split <;> rfl

theorem addAll_windowSize : ∀ (height : ℕ) (infos : List BlockInfo) (hf : HardFork)
    (db : BlockchainDB), (addAll height infos (hf, db)).1.windowSize = hf.windowSize
  | _, [], _, _ => rfl
  | height, b :: infos, hf, db =>
    (addAll_windowSize (height + 1) infos _ _).trans (add_windowSize hf db b.bl height)

theorem reorganizeFromChainHeight_windowSize (hf : HardFork) (db : BlockchainDB) (height : ℕ) :
    (hf.reorganizeFromChainHeight db height).1.windowSize = hf.windowSize := by
  unfold reorganizeFromChainHeight reorganizeFromBlockHeight
  split
  · rfl
  · split
    · rfl
    · exact addAll_windowSize _ _ _ _

end HardFork

end Nerva
