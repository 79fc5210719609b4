import Mathlib.Data.List.Basic

/-!
# Swaps and random choice

Swapping elements of a list permutes it, and so do loops of swaps. A draw is any number, of which
the remainder is taken.
-/

namespace Shuffle

variable {α : Type*}

def swap (l : List α) (i j : ℕ) : List α :=
  if h : i < l.length ∧ j < l.length then (l.set i (l.get ⟨j, h.2⟩)).set j (l.get ⟨i, h.1⟩) else l

theorem swap_perm (l : List α) (i j : ℕ) : (swap l i j).Perm l := by
  unfold swap
  split_ifs with h
  · exact List.set_set_perm h.1 h.2
  · exact .refl l

/-- Each of `n` places from `i` on is swapped with a random one that is not before it. -/
def shuffle (draws : ℕ → ℕ) : ℕ → ℕ → List α → List α
  | 0, _, l => l
  | n + 1, i, l => shuffle draws n (i + 1) (swap l i (i + draws i % (l.length - i)))

/-- Whatever is drawn, a shuffle only reorders. -/
theorem shuffle_perm (draws : ℕ → ℕ) : ∀ (n i : ℕ) (l : List α), (shuffle draws n i l).Perm l
  | 0, _, l => .refl l
  | n + 1, i, l => (shuffle_perm draws n (i + 1) _).trans (swap_perm l i _)

/-- Swaps a drawn element to the end and takes it from there. -/
def takeRandom (draw : ℕ) (l : List α) : Option (α × List α) :=
  let l := swap l (l.length - 1) (draw % l.length)
  l.getLast?.map fun a => (a, l.dropLast)

/-- The element taken and the rest are the list. -/
theorem takeRandom_perm {draw : ℕ} {l l' : List α} {a : α} (h : takeRandom draw l = some (a, l')) :
    (a :: l').Perm l := by
  unfold takeRandom at h
  simp only [Option.map_eq_some_iff, Prod.mk.injEq] at h
  obtain ⟨b, hb, rfl, rfl⟩ := h
  refine .trans ?_ (swap_perm l (l.length - 1) (draw % l.length))
  generalize swap l (l.length - 1) (draw % l.length) = m at hb ⊢
  have hm := List.dropLast_append_getLast? b hb
  calc (b :: m.dropLast).Perm (m.dropLast ++ [b]) := List.perm_append_singleton b _ |>.symm
    _ = m := hm

theorem eq_nil_of_takeRandom {draw : ℕ} {l : List α} (h : takeRandom draw l = none) : l = [] := by
  unfold takeRandom at h
  simp only [Option.map_eq_none_iff, List.getLast?_eq_none_iff] at h
  have hlen := (swap_perm l (l.length - 1) (draw % l.length)).length_eq
  rw [h] at hlen
  exact List.length_eq_zero_iff.1 hlen.symm

end Shuffle
