import Mathlib.Data.List.GetD
import Mathlib.Data.List.Sort

/-!
# Sorted lists

Insertion sort depends on a list's elements only, and a list with two values sorts into a block of
each.
-/

namespace Sorting

open List

section

variable {α : Type*} (r : α → α → Prop) [DecidableRel r] [Std.Total r] [IsTrans α r]
  [Std.Antisymm r]

/-- Sorting does not depend on the order before it. -/
theorem insertionSort_eq_of_perm {l₁ l₂ : List α} (h : l₁.Perm l₂) :
    l₁.insertionSort r = l₂.insertionSort r := by
  refine List.Perm.eq_of_pairwise' (pairwise_insertionSort r l₁)
    (pairwise_insertionSort r l₂) ?_
  exact (perm_insertionSort r l₁).trans (h.trans (perm_insertionSort r l₂).symm)

/-- Sorting around a pivot. -/
theorem insertionSort_append_cons {low high : List α} {x : α} (hlow : ∀ a ∈ low, r a x)
    (hhigh : ∀ a ∈ high, r x a) :
    (low ++ x :: high).insertionSort r = low.insertionSort r ++ x :: high.insertionSort r := by
  have hmem : ∀ {l : List α} {a : α}, a ∈ l.insertionSort r ↔ a ∈ l :=
    (perm_insertionSort r _).mem_iff
  refine List.Perm.eq_of_pairwise' (pairwise_insertionSort r _) ?_ ?_
  · rw [pairwise_append, pairwise_cons]
    refine ⟨pairwise_insertionSort r low,
      ⟨fun a ha => hhigh a (hmem.mp ha), pairwise_insertionSort r high⟩, ?_⟩
    intro a ha b hb
    rcases mem_cons.mp hb with rfl | hb
    · exact hlow a (hmem.mp ha)
    · exact IsTrans.trans a x b (hlow a (hmem.mp ha)) (hhigh b (hmem.mp hb))
  · refine (perm_insertionSort r _).trans ?_
    exact (perm_insertionSort r low).symm.append
      ((perm_insertionSort r high).symm.cons x)

/-- A list of two values is sorted by counting them. -/
theorem insertionSort_of_two_values [DecidableEq α] {x y : α} (hxy : r x y) (hne : x ≠ y)
    {l : List α} (hl : ∀ a ∈ l, a = x ∨ a = y) :
    l.insertionSort r = replicate (l.count x) x ++ replicate (l.count y) y := by
  have hrefl : ∀ a, r a a := fun a => (Std.Total.total a a).elim id id
  have hsorted : (replicate (l.count x) x ++ replicate (l.count y) y).Pairwise r := by
    rw [pairwise_append]
    refine ⟨pairwise_replicate.mpr (.inr (hrefl x)),
      pairwise_replicate.mpr (.inr (hrefl y)), ?_⟩
    intro a ha b hb
    rw [eq_of_mem_replicate ha, eq_of_mem_replicate hb]
    exact hxy
  have hperm : l.Perm (replicate (l.count x) x ++ replicate (l.count y) y) := by
    rw [perm_iff_count]
    intro a
    rw [count_append, count_replicate, count_replicate]
    by_cases hx : a = x
    · subst hx
      simp [hne.symm]
    · by_cases hy : a = y
      · subst hy
        simp [hne]
      · have hnot : a ∉ l := fun hmem => (hl a hmem).elim hx hy
        rw [count_eq_zero_of_not_mem hnot]
        simp [Ne.symm hx, Ne.symm hy]
  rw [insertionSort_eq_of_perm r hperm, hsorted.insertionSort_eq]

end

theorem getD_replicate_append_left {α : Type*} {a b k : ℕ} {x y d : α} (h : k < a) :
    (replicate a x ++ replicate b y).getD k d = x := by
  rw [getD_append _ _ _ _ (by simpa using h), getD_replicate _ h]

theorem getD_replicate_append_right {α : Type*} {a b k : ℕ} {x y d : α} (h : a ≤ k)
    (hk : k < a + b) : (replicate a x ++ replicate b y).getD k d = y := by
  rw [getD_append_right _ _ _ _ (by simpa using h), length_replicate,
    getD_replicate _ (by omega)]

end Sorting
