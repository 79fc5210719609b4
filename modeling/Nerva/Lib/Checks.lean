import Mathlib.Data.List.Basic

/-!
# Chains of checks

Validation code is a chain of tests, each of which rejects with its own error, and loops over such
chains. `require` is one test in the `Except` monad and `demand` one lookup; the rules below say
what an accepted chain or loop has passed.
-/

namespace Checks

universe u v

variable {ε : Type v} {α β σ : Type u} {a : α} {e : ε} {f : α → Except ε β}
  {step : σ → α → Except ε σ}

/-- A check that fails with an error. -/
def require (c : Prop) [Decidable c] (e : ε) : Except ε Unit :=
  if c then .ok () else .error e

@[simp] theorem pure_eq_ok {b : α} : (pure a : Except ε α) = .ok b ↔ a = b := by
  simp [pure, Except.pure]

/-- A computation succeeds when both its parts do. -/
@[simp] theorem bind_eq_ok {x : Except ε α} {b : β} :
    x >>= f = .ok b ↔ ∃ a, x = .ok a ∧ f a = .ok b := by
  cases x <;> simp [bind, Except.bind]

@[simp] theorem require_eq_ok {c : Prop} [Decidable c] {u : Unit} : require c e = .ok u ↔ c := by
  unfold require
  split <;> simp_all

@[simp] theorem exists_unit {p : Unit → Prop} : (∃ u, p u) ↔ p () :=
  ⟨fun ⟨_, h⟩ => h, fun h => ⟨_, h⟩⟩

/-- A lookup: carry on with what it finds, reject with `e` when there is nothing. -/
def demand (o : Option α) (e : ε) : Except ε α :=
  match o with
  | some a => .ok a
  | none => .error e

@[simp] theorem demand_eq_ok {o : Option α} : demand o e = .ok a ↔ o = some a := by
  cases o <;> simp [demand]

theorem demand_some : demand (some a) e = .ok a := rfl

theorem ok_bind : (.ok a : Except ε α) >>= f = f a := rfl

/-- What an accepted loop has passed: each element was accepted at some state, from which the
final state is reached by the relation every step respects. -/
theorem foldlM_ok_mem {R : σ → σ → Prop} (hrefl : ∀ s, R s s)
    (htrans : ∀ {s t u}, R s t → R t u → R s u) (hstep : ∀ s a s', step s a = .ok s' → R s s') :
    ∀ (l : List α) (s r : σ), l.foldlM step s = .ok r →
      R s r ∧ ∀ a ∈ l, ∃ t t', step t a = .ok t' ∧ R t' r
  | [], s, r, h => by
    simp only [List.foldlM_nil, pure_eq_ok] at h
    exact ⟨h ▸ hrefl s, by simp⟩
  | a :: l, s, r, h => by
    simp only [List.foldlM_cons, bind_eq_ok] at h
    obtain ⟨s', hs', hl⟩ := h
    obtain ⟨hr, hmem⟩ := foldlM_ok_mem hrefl htrans hstep l s' r hl
    refine ⟨htrans (hstep _ _ _ hs') hr, fun b hb => ?_⟩
    rcases List.mem_cons.mp hb with rfl | hb
    · exact ⟨s, s', hs', hr⟩
    · exact hmem b hb

/-- If every step succeeds while an invariant holds, and keeps it, then the loop succeeds. -/
theorem foldlM_ok_of_inv {P : σ → Prop} :
    ∀ (l : List α) (s : σ), P s → (∀ s, P s → ∀ a ∈ l, ∃ s', step s a = .ok s' ∧ P s') →
      ∃ r, l.foldlM step s = .ok r ∧ P r
  | [], s, hs, _ => ⟨s, by simp, hs⟩
  | a :: l, s, hs, h => by
    obtain ⟨s', hs', hp⟩ := h s hs a (by simp)
    obtain ⟨r, hr, hpr⟩ := foldlM_ok_of_inv l s' hp fun s hs b hb =>
      h s hs b (List.mem_cons_of_mem _ hb)
    exact ⟨r, by simpa [List.foldlM_cons] using ⟨s', hs', hr⟩, hpr⟩

end Checks
