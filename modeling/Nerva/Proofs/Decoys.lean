import Mathlib.Algebra.Order.Ring.Nat
import Mathlib.Data.List.Nodup
import Mathlib.Data.List.Perm.Subperm
import Nerva.Decoys

/-!
# Blocks and blackballed outputs

The block of a drawn output is looked for with `std::lower_bound`, which finds the block before it
when the output is the first of its block. In the loop, a blackballed output counts as gone through
each time it is drawn.
-/

namespace Nerva

open List

namespace GammaPicker

variable {offsets : List ℕ} {g : GammaPicker} {i : ℕ}

theorem make_ok (h : make offsets = .ok g) :
    g.rctOffsets = offsets ∧ (usable offsets).getLast? = some g.numRctOutputs := by
  unfold make at h
  simp only [] at h
  split_ifs at h with hlen hnum
  cases h
  rcases hlast : (usable offsets).getLast? with _ | o
  · simp [hlast] at hnum
  · simp [hlast]

/-- The block found is the first that ends at or after the output. -/
theorem lowerBound_spec (h : make offsets = .ok g) (hi : i < g.numRctOutputs) :
    g.lowerBound i < (usable offsets).length ∧
      (∃ o, offsets[g.lowerBound i]? = some o ∧ i ≤ o) ∧
      ∀ b < g.lowerBound i, ∃ o, offsets[b]? = some o ∧ o < i := by
  obtain ⟨rfl, hlast⟩ := make_ok h
  have hlt : g.lowerBound i < (usable g.rctOffsets).length :=
    findIdx_lt_length_of_exists ⟨_, mem_of_getLast? hlast, by simpa using hi.le⟩
  have hget : ∀ b < (usable g.rctOffsets).length,
      g.rctOffsets[b]? = (usable g.rctOffsets)[b]? := fun b hb => by
    unfold usable at hb ⊢
    rw [getElem?_take_of_lt (length_take_le .. |>.trans_lt' hb)]
  refine ⟨hlt, ⟨_, (hget _ hlt).trans (getElem?_eq_getElem hlt), ?_⟩, fun b hb => ?_⟩
  · have hfound := findIdx_getElem (w := hlt)
    simp only [Bool.not_eq_true', decide_eq_false_iff_not, not_lt] at hfound
    exact hfound
  · exact ⟨_, (hget b (hb.trans hlt)).trans (getElem?_eq_getElem (hb.trans hlt)),
      by simpa using not_of_lt_findIdx hb⟩

/-- The output is one of the block. -/
def InBlock (g : GammaPicker) (b i : ℕ) : Prop := g.firstRct b ≤ i ∧ i < g.rctOffsets.getD b 0

theorem firstRct_lowerBound_le (h : make offsets = .ok g) (hi : i < g.numRctOutputs) :
    g.firstRct (g.lowerBound i) ≤ i := by
  obtain ⟨-, -, hbelow⟩ := lowerBound_spec h hi
  obtain ⟨rfl, -⟩ := make_ok h
  unfold firstRct
  split_ifs with hzero
  · exact Nat.zero_le i
  · obtain ⟨o, ho, hlt⟩ := hbelow (g.lowerBound i - 1) (by omega)
    simpa [getD_eq_getElem?_getD, ho] using hlt.le

/-- The block that `pick` chooses from has the drawn output `i`, and so it never fails, just when no
block ends before `i`: when `i` is not the first output of its block. -/
theorem pick_ownBlock_iff (h : make offsets = .ok g) (hsorted : offsets.Pairwise (· ≤ ·))
    (hi : i < g.numRctOutputs) :
    (g.InBlock (g.lowerBound i) i ∧ ∀ draw, ∃ j,
      g.pick (g.numRctOutputs - 1 - i) draw = .ok (some j) ∧ g.InBlock (g.lowerBound i) j) ↔
      i ∉ offsets := by
  obtain ⟨hlt, ⟨o, ho, hle⟩, hbelow⟩ := lowerBound_spec h hi
  have hfirst := firstRct_lowerBound_le h hi
  obtain ⟨rfl, -⟩ := make_ok h
  have hend : g.rctOffsets.getD (g.lowerBound i) 0 = o := by
    simp [ho]
  simp only [InBlock, hend]
  constructor
  · rintro ⟨⟨-, hio⟩, -⟩ hmem
    obtain ⟨b, hb, rfl⟩ := getElem_of_mem hmem
    rcases Nat.lt_or_ge b (g.lowerBound g.rctOffsets[b]) with hlow | hhigh
    · obtain ⟨o', ho', hlt'⟩ := hbelow b hlow
      rw [getElem?_eq_getElem hb, Option.some.injEq] at ho'
      omega
    · obtain ⟨hb', rfl⟩ := List.getElem?_eq_some_iff.1 ho
      rcases hhigh.eq_or_lt with heq | hhigh
      · simp [heq] at hio
      · have := pairwise_iff_getElem.1 hsorted _ _ hb' hb hhigh
        omega
  · intro hmem
    have hio : i < o := lt_of_le_of_ne hle fun heq => hmem (heq ▸ mem_of_getElem? ho)
    refine ⟨⟨hfirst, hio⟩, fun draw => ⟨g.firstRct (g.lowerBound i) +
      draw % (o - g.firstRct (g.lowerBound i)), ?_, Nat.le_add_right _ _, ?_⟩⟩
    · unfold pick
      rw [if_neg (by omega), show g.numRctOutputs - 1 - (g.numRctOutputs - 1 - i) = i by omega]
      simp only [hend]
      rw [if_neg hlt.ne, if_neg (by omega)]
    · have := Nat.mod_lt draw (show 0 < o - g.firstRct (g.lowerBound i) by omega)
      omega

/-- Two blocks with two outputs each; the last output is drawn. -/
theorem pick_ownBlock_last :
    let g : GammaPicker := ⟨2 :: replicate 10 4, 4⟩
    g.lowerBound 3 = 1 ∧ ∀ draw, ∃ j, g.pick 0 draw = .ok (some j) ∧ g.InBlock 1 j :=
  ⟨by decide, ((@pick_ownBlock_iff (2 :: replicate 10 4) _ 3 rfl (by decide) (by decide)).2
    (by decide)).2⟩

/-- The first block has no outputs, and the first output of the second one is drawn. -/
theorem pick_emptyBlock :
    let g : GammaPicker := ⟨0 :: replicate 10 4, 4⟩
    make (0 :: replicate 10 4) = .ok g ∧ (0 :: replicate 10 4).Pairwise (· ≤ ·) ∧
      g.lowerBound 0 = 0 ∧ ¬ g.InBlock 0 0 ∧ g.pick 3 0 = .ok none :=
  ⟨rfl, by decide, by decide, fun h => absurd h.2 (by decide), by decide⟩

end GammaPicker

namespace Picking

variable {env : PickingEnv} {real : ℕ} {draws : ℕ → ℕ} {s : Picking} {i : ℕ}

structure Inv (env : PickingEnv) (real : ℕ) (s : Picking) : Prop where
  seen : s.seenIndices = s.picks.reverse ++ [real]
  nodup : s.seenIndices.Nodup
  found : s.numFound = s.seenIndices.length
  le_usable : s.seenIndices.length ≤ s.numUsableOuts
  usable_le : s.numUsableOuts ≤ env.numOuts

/-- The outputs that are still to be gone through, in this pass and the next one. -/
def left (env : PickingEnv) (s : Picking) : ℕ :=
  s.numUsableOuts - s.seenIndices.length + if s.allowBlackballed then 0 else env.numOuts + 1

/-- What one round of picking does. -/
theorem round_spec (hmore : env.requestedOutputsCount < env.numOuts) (h : s.Inv env real)
    (hdone : s.done env = false) (i : ℕ) :
    (s.round env i).Inv env real ∧
      ((s.round env i).left env < s.left env ∨ s.round env i = s ∧ i ∈ s.seenIndices) ∧
      ∀ b, (s.round env i).picks = s.picks ++ [b] → b = i ∧ i ∉ s.seenIndices := by
  have hround : s.round env i = (s.allowing env).take env i := by simp [round, hdone]
  obtain ⟨hseen, hnodup, hfound, hle, hle'⟩ := h
  simp only [done, Bool.or_eq_false_iff]
    at hdone
  -- the pass goes on, or the second one begins
  have hallow : s.allowing env = s ∧ s.seenIndices.length < s.numUsableOuts ∨
      s.allowing env = { s with allowBlackballed := true, numUsableOuts := env.numOuts } ∧
        s.allowBlackballed = false := by
    unfold allowing
    split_ifs with heq
    · simpa [heq] using hdone.2
    · exact .inl ⟨rfl, by omega⟩
  rw [hround]
  rcases hallow with ⟨ha, hlt⟩ | ⟨ha, hfalse⟩
  all_goals
    unfold take
    split_ifs with hmem hblack
  all_goals
    refine ⟨⟨?_, ?_, ?_, ?_, ?_⟩, ?_, ?_⟩
  all_goals
    simp_all [left]
  all_goals omega

theorem after_inv (hmore : env.requestedOutputsCount < env.numOuts) :
    ∀ n, (after env real draws n).Inv env real
  | 0 => ⟨rfl, nodup_singleton real, rfl, Nat.zero_lt_of_lt hmore, le_rfl⟩
  | n + 1 => by
    have ih := after_inv hmore n
    rw [after]
    cases hdone : (after env real draws n).done env with
    | false => exact (round_spec hmore ih hdone _).1
    | true => simpa [round, hdone] using ih

theorem exists_unseen (hlt : s.seenIndices.length < env.numOuts) :
    ∃ i < env.numOuts, i ∉ s.seenIndices := by
  by_contra hall
  push Not at hall
  have hsub : range env.numOuts ⊆ s.seenIndices := fun i hi => hall i (mem_range.1 hi)
  have := (subperm_of_subset nodup_range hsub).length_le
  rw [length_range] at this
  omega

/-- A sequence of draws in which every output comes again and again. -/
structure Fair (numOuts : ℕ) (draws : ℕ → ℕ) : Prop where
  lt : ∀ n, draws n < numOuts
  often : ∀ i < numOuts, ∀ n, ∃ m, n ≤ m ∧ draws m = i

def drawnFirst (numOuts b n : ℕ) : ℕ := if n < numOuts then b else n % numOuts

theorem fair_drawnFirst {numOuts b : ℕ} (hb : b < numOuts) :
    Fair numOuts (drawnFirst numOuts b) := by
  unfold drawnFirst
  refine ⟨fun n => ?_, fun i hi n => ⟨(n + 1) * numOuts + i, ?_, ?_⟩⟩
  · split_ifs
    · exact hb
    · exact Nat.mod_lt n (by omega)
  · have := Nat.le_mul_of_pos_right (n + 1) (Nat.zero_lt_of_lt hb)
    omega
  · have := Nat.le_mul_of_pos_left numOuts (Nat.add_pos_right n Nat.one_pos)
    rw [if_neg (by omega), Nat.mul_add_mod', Nat.mod_eq_of_lt hi]

/-- Fair draws end the picking. -/
theorem exists_done (hmore : env.requestedOutputsCount < env.numOuts)
    (hfair : Fair env.numOuts draws) (n : ℕ) : ∃ m, (after env real draws m).done env := by
  -- by induction on what is left: an output that is not seen comes at last
  induction hk : (after env real draws n).left env using Nat.strong_induction_on generalizing n with
  | _ k ih =>
  cases hdone : (after env real draws n).done env with
  | true => exact ⟨n, hdone⟩
  | false =>
    have hinv : (after env real draws n).Inv env real := after_inv hmore n
    have hlt : (after env real draws n).seenIndices.length < env.numOuts := by
      simp only [done, Bool.or_eq_false_iff, decide_eq_false_iff_not] at hdone
      have := hinv.found
      omega
    obtain ⟨i, hi, hunseen⟩ := exists_unseen hlt
    obtain ⟨m, hnm, rfl⟩ := hfair.often i hi n
    have hstep : ∀ j, after env real draws j = after env real draws n →
        (∃ m, (after env real draws m).done env) ∨
          after env real draws (j + 1) = after env real draws n ∧ draws j ≠ draws m := by
      intro j hj
      have hspec := (round_spec hmore hinv hdone (draws j)).2.1
      rw [← hj, ← after, hj] at hspec
      rcases hspec with hless | ⟨hsame, hseen⟩
      · exact .inl (ih _ (hk ▸ hless) (j + 1) rfl)
      · exact .inr ⟨hsame, fun heq => hunseen (heq ▸ hseen)⟩
    by_contra hnever
    have hstay : ∀ j, n ≤ j → after env real draws j = after env real draws n :=
      fun j hj => Nat.le_induction rfl (fun j _ ihj => ((hstep j ihj).resolve_left hnever).1) j hj
    exact ((hstep m (hstay m hnm)).resolve_left hnever).2 rfl

/-- The loop ends, picks nothing twice, and a blackballed output only when all the others have been
picked. -/
structure Orderly (env : PickingEnv) (real : ℕ) (draws : ℕ → ℕ) : Prop where
  ends : ∃ n, (after env real draws n).done env
  nodup : ∀ n, (real :: (after env real draws n).picks).Nodup
  last : ∀ n b, (after env real draws (n + 1)).picks = (after env real draws n).picks ++ [b] →
    env.isOutputBlackballed b → ∀ i < env.numOuts, ¬ env.isOutputBlackballed i →
      i ∈ (after env real draws n).seenIndices

theorem after_drawnFirst {b : ℕ} (htwo : 1 < env.requestedOutputsCount) (hb : b ≠ real)
    (hblack : env.isOutputBlackballed b) : ∀ n < env.numOuts,
      after env real (drawnFirst env.numOuts b) n =
        { start env real with numUsableOuts := env.numOuts - n }
  | 0, _ => rfl
  | n + 1, hn => by
    have hne : 1 ≠ env.numOuts - n := by omega
    rw [after, after_drawnFirst htwo hb hblack n (by omega), drawnFirst, if_pos (by omega)]
    simp [round, done, allowing, take, start, hb, hblack, hne, htwo.not_ge, Nat.sub_sub]

/-- The loop is orderly for all fair draws just when it has nothing to pick, when no output but the
real one is blackballed, or when all others are. -/
theorem orderly_iff (env : PickingEnv) (real : ℕ)
    (hmore : env.requestedOutputsCount < env.numOuts) :
    (∀ draws, Fair env.numOuts draws → Orderly env real draws) ↔
      env.requestedOutputsCount ≤ 1 ∨
        (∀ i < env.numOuts, env.isOutputBlackballed i → i = real) ∨
        ∀ i < env.numOuts, ¬ env.isOutputBlackballed i → i = real := by
  constructor
  · intro h
    by_contra hcond
    push Not at hcond
    obtain ⟨htwo, ⟨b, hb, hblack, hbreal⟩, w, hw, hwhite, hwreal⟩ := hcond
    -- it is drawn until no turn is left, and then once more
    have hafter := after_drawnFirst htwo hbreal hblack (env.numOuts - 1) (by omega)
    have hone : env.numOuts - (env.numOuts - 1) = 1 := by omega
    rw [hone] at hafter
    have hseen := (h _ (fair_drawnFirst hb)).last (env.numOuts - 1) b ?_ hblack w hw hwhite
    · rw [hafter] at hseen
      exact hwreal (mem_singleton.1 hseen)
    · rw [after, hafter, drawnFirst, if_pos (by omega)]
      simp [round, done, allowing, take, start, hbreal, htwo.not_ge]
  · intro hcond draws hfair
    have hinv : ∀ n, (after env real draws n).Inv env real := after_inv hmore
    refine ⟨exists_done hmore hfair 0, fun n => ?_, fun n b hpick hblack i hi hwhite => ?_⟩
    · have := (hinv n).nodup
      rw [(hinv n).seen, ← reverse_cons, nodup_reverse] at this
      exact this
    · have hreal : real ∈ (after env real draws n).seenIndices := by simp [(hinv n).seen]
      cases hdone : (after env real draws n).done env with
      | true => simp [after, round, hdone] at hpick
      | false =>
        obtain ⟨rfl, hunseen⟩ := (round_spec hmore (hinv n) hdone (draws n)).2.2 b hpick
        rcases hcond with hone | hblacks | hwhites
        · have := (hinv n).found
          have := length_pos_of_mem hreal
          simp only [done, Bool.or_eq_false_iff, decide_eq_false_iff_not] at hdone
          omega
        · exact absurd (hblacks _ (hfair.lt n) hblack ▸ hreal) hunseen
        · exact hwhites i hi hwhite ▸ hreal

/-- One decoy out of four outputs, none of them blackballed, drawn in turn. -/
theorem orderly_noneBlackballed : Orderly ⟨5, 2, fun _ => false⟩ 0 (drawnFirst 5 3) :=
  (orderly_iff ⟨5, 2, fun _ => false⟩ 0 (by decide)).2 (.inr (.inl (by simp))) _
    (fair_drawnFirst (by decide))

/-- Output 1 is blackballed, and picked while 2 and 3 are not. -/
theorem orderly_drawnAgain :
    Fair 4 (drawnFirst 4 1) ∧ ¬ Orderly ⟨4, 2, fun i => i == 1⟩ 0 (drawnFirst 4 1) :=
  ⟨fair_drawnFirst (by decide), fun h =>
    absurd (h.last 3 1 (by decide) (by decide) 2 (by decide) (by decide)) (by decide)⟩

end Picking

end Nerva
