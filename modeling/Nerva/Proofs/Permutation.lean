import Nerva.Permutation
import Mathlib.GroupTheory.Perm.Support

/-!
# Vectors after a permutation
-/

namespace Nerva

open Function Equiv Perm

variable {n : ℕ} {α : Type} {w : Fin n → α} {i : Fin n}

/-- From `s` with the permutation `π` left to do, `s'` has been reached with `π'` left. -/
structure Reaches (w : Fin n → α) (s : Permuting n α) (π : Perm (Fin n)) (s' : Permuting n α)
    (π' : Perm (Fin n)) : Prop where
  permutation : ∀ j, s'.permutation j = π' j
  value : s'.v ∘ π' = w
  fixed : ∀ j, π j = j → π' j = j
  swaps : s'.swaps + (π'.support.card - 1) ≤ s.swaps + (π.support.card - 1)

theorem card_support_le (π : Perm (Fin n)) : π.support.card ≤ n := by
  simpa using Finset.card_le_univ π.support

/-- Within a cycle the vector still says `i` where the permutation that is left has `c`. -/
theorem followCycle_reaches : ∀ (fuel : ℕ) (s : Permuting n α) (c : Fin n) (π : Perm (Fin n)),
    1 ≤ fuel → π.support.card ≤ fuel → (∀ j, s.permutation j = if π j = c then i else π j) →
    s.v ∘ π = w → (c = i ∨ π i = i) →
    ∃ s' π', followCycle i fuel c s = some s' ∧ Reaches w s π s' π' ∧ π' i = i
  | fuel + 1, s, c, π, _, hfuel, hperm, hvalue, hi => by
    unfold followCycle
    by_cases hc : π c = c
    · refine ⟨_, π, if_pos (by rw [hperm, if_pos hc]), ⟨?_, hvalue, fun _ => id, le_rfl⟩, ?_⟩
      · intro j
        by_cases hj : j = c
        · simp [hj, hc]
        · have hjc : π j ≠ c := fun h => hj (π.injective (h.trans hc.symm))
          simp [hj, hperm, hjc]
      · exact hi.elim (fun h => h ▸ hc) id
    · have hnext : s.permutation c = π c := by rw [hperm, if_neg hc]
      have hfix : ∀ j, π j = j → j ≠ c ∧ j ≠ π c := fun j hj =>
        have hjc : j ≠ c := fun h => hc (h ▸ hj)
        ⟨hjc, fun h => hjc (π.injective (hj.trans h))⟩
      have hkeep : ∀ j, π j = j → (swap c (π c) * π) j = j := fun j hj => by
        rw [mul_apply, hj, swap_apply_of_ne_of_ne (hfix j hj).1 (hfix j hj).2]
      have hne : π c ≠ i := fun h =>
        hi.elim (fun hci => hc (h.trans hci.symm)) fun hii => (hfix i hii).2 h.symm
      have hcard := card_support_swap_mul hc
      have htwo : 2 ≤ π.support.card :=
        two_le_card_support_of_ne_one fun h => hc (by rw [h, one_apply])
      have hperm' : ∀ j, update s.permutation c c j =
          (if (swap c (π c) * π) j = π c then i else (swap c (π c) * π) j : Fin n) := fun j => by
        by_cases hj : j = c
        · simp [hj, Ne.symm hc]
        · have hjc : π j ≠ π c := fun h => hj (π.injective h)
          rw [update_of_ne hj, hperm, mul_apply]
          by_cases hpred : π j = c
          · simp [hpred]
          · simp [hpred, swap_apply_of_ne_of_ne hpred hjc, hjc]
      have hvalue' : (s.v ∘ swap c (π c)) ∘ (swap c (π c) * π) = w := by
        rw [← hvalue]
        funext j
        simp
      have hi' : (swap c (π c) * π) i = i := by
        rcases hi with rfl | hi
        · simp
        · exact hkeep i hi
      obtain ⟨s', π', hrun, hreaches, hfixed⟩ := followCycle_reaches fuel
        ⟨update s.permutation c c, s.v ∘ swap c (π c), s.swaps + 1⟩ (π c) (swap c (π c) * π)
        (by omega) (by omega) hperm' hvalue' (.inr hi')
      refine ⟨s', π', ?_, ⟨hreaches.permutation, hreaches.value, fun j hj =>
        hreaches.fixed j (hkeep j hj), hreaches.swaps.trans (by simp only []; omega)⟩, hfixed⟩
      simp only [hnext, Fin.val_inj, if_neg hne, Fin.is_lt, dif_pos, hrun]

/-- Following the cycles of all positions applies the permutation. -/
theorem foldlM_followCycle : ∀ (l : List (Fin n)) (s : Permuting n α) (π : Perm (Fin n)),
    (∀ j, s.permutation j = π j) → s.v ∘ π = w →
    ∃ s' π', l.foldlM (fun s i => followCycle i n i s) s = some s' ∧ Reaches w s π s' π' ∧
      ∀ j ∈ l, π' j = j
  | [], s, π, hperm, hvalue => ⟨s, π, rfl, ⟨hperm, hvalue, fun _ => id, le_rfl⟩, by simp⟩
  | i :: l, s, π, hperm, hvalue => by
    obtain ⟨s₁, π₁, hrun, h₁, hi⟩ := followCycle_reaches (i := i) n s i π
      (Nat.one_le_iff_ne_zero.mpr i.pos.ne') (card_support_le π)
      (fun j => by rw [hperm]; split_ifs with h <;> simp [h]) hvalue (.inl rfl)
    obtain ⟨s₂, π₂, hrest, h₂, hl⟩ := foldlM_followCycle l s₁ π₁ h₁.permutation h₁.value
    refine ⟨s₂, π₂, by rw [List.foldlM_cons, hrun]; exact hrest, ⟨h₂.permutation, h₂.value,
      fun j hj => h₂.fixed j (h₁.fixed j hj), h₂.swaps.trans h₁.swaps⟩, ?_⟩
    rw [List.forall_mem_cons]
    exact ⟨h₂.fixed i hi, hl⟩

/-- The test finds each index, so that the vector is a permutation. -/
theorem exists_perm_of_found {p : Fin n → ℕ} (h : ∀ m : Fin n, ∃ k, p k = m) :
    ∃ π : Perm (Fin n), ∀ i, p i = π i := by
  choose g hg using h
  have hinj : Injective g := fun a b hab => Fin.val_inj.mp (by rw [← hg a, ← hg b, hab])
  let e := Equiv.ofBijective g (Finite.injective_iff_bijective.mp hinj)
  refine ⟨e.symm, fun i => ?_⟩
  rw [← hg (e.symm i)]
  exact congrArg p (e.apply_symm_apply i).symm

/-- A vector that is no permutation is refused before anything is swapped; along a permutation every
element moves to its place, with fewer swaps than there are elements. -/
theorem applyPermutation_exact (p : Fin n → ℕ) (v : Fin n → α) :
    ((¬∃ π : Perm (Fin n), ∀ i, p i = π i) →
      applyPermutation p v = some (.error "Bad permutation", ⟨p, v, 0⟩)) ∧
    ∀ π : Perm (Fin n), (∀ i, p i = π i) →
      ∃ s, applyPermutation p v = some (.ok (), s) ∧ (∀ i, s.v i = v (π i)) ∧ s.swaps ≤ n - 1 := by
  refine ⟨fun h => if_neg fun hfound => h (exists_perm_of_found hfound), fun π hπ => ?_⟩
  obtain ⟨s, π', hrun, h, hfixed⟩ := foldlM_followCycle (List.finRange n) ⟨p, v, 0⟩ π hπ rfl
  obtain rfl : π' = 1 := Equiv.ext fun j => hfixed j (List.mem_finRange j)
  have hcard := card_support_le π
  have hswaps := h.swaps
  rw [Perm.support_one, Finset.card_empty] at hswaps
  refine ⟨s, ?_, fun i => ?_, by simp only [] at hswaps; omega⟩
  · rw [applyPermutation, if_pos fun m => ⟨π.symm m, by rw [hπ, apply_symm_apply]⟩, hrun]
    rfl
  · exact congrFun h.value i

end Nerva
