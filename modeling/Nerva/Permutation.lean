import Mathlib.Data.Fintype.EquivFin

/-!
# Applying a permutation

`apply_permutation` goes along the cycles of an index vector, which it overwrites on its way.
-/

namespace Nerva

open Function

variable {n : ℕ} {α : Type}

/-- The copy of the index vector, the vector, and how often `swap` was called. -/
structure Permuting (n : ℕ) (α : Type) where
  permutation : Fin n → ℕ
  v : Fin n → α
  swaps : ℕ

/-- The inner loop; none for an index past the end, or when `fuel` is not enough. -/
def followCycle (i : Fin n) : ℕ → Fin n → Permuting n α → Option (Permuting n α)
  | 0, _, _ => none
  | fuel + 1, current, s =>
    let next := s.permutation current
    let permutation := update s.permutation current current
    if next = i then some { s with permutation }
    else if h : next < n then
      followCycle i fuel ⟨next, h⟩ ⟨permutation, s.v ∘ Equiv.swap current ⟨next, h⟩, s.swaps + 1⟩
    else none

/-- For two vectors of one size; the test comes before the first swap. -/
def applyPermutation (permutation : Fin n → ℕ) (v : Fin n → α) :
    Option (Except String Unit × Permuting n α) :=
  let s := ⟨permutation, v, 0⟩
  if ∀ m : Fin n, ∃ k, permutation k = m then
    ((List.finRange n).foldlM (fun s i => followCycle i n i s) s).map (.ok (), ·)
  else some (.error "Bad permutation", s)

end Nerva
