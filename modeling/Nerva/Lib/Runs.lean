import Mathlib.Data.List.Basic

/-!
# Safe runs

A machine takes the elements of a list one after the other, and can get stuck. Where one step out of
an invariant state is good just when it is safe, every state of a run is good if and only if every
step of the run is safe where it is taken.
-/

namespace Nerva.Runs

variable {σ α : Type*} (step : σ → α → Option σ) (Safe : σ → α → Prop)

/-- The state after a list of operations, if all of them succeed. -/
def run : σ → List α → Option σ
  | s, [] => some s
  | s, a :: l => (step s a).bind fun s' => run s' l

/-- What each step keeps is kept by a run. -/
theorem inv_of_run {Inv : σ → Prop} (hstep : ∀ s a s', Inv s → step s a = some s' → Inv s') :
    ∀ (l : List α) (s s' : σ), Inv s → run step s l = some s' → Inv s'
  | [], _, _, hs, h => Option.some.inj h ▸ hs
  | a :: l, s, s', hs, h => by
    obtain ⟨t, ht, hrest⟩ := Option.bind_eq_some_iff.1 h
    exact inv_of_run hstep l t s' (hstep s a t hs ht) hrest

/-- Every operation of a run is safe in the state it finds. -/
def SafeRun : σ → List α → Prop
  | _, [] => True
  | s, a :: l => Safe s a ∧ ∀ s', step s a = some s' → SafeRun s' l

instance SafeRun.decidable [∀ s a, Decidable (Safe s a)] :
    ∀ (l : List α) (s : σ), Decidable (SafeRun step Safe s l)
  | [], _ => isTrue trivial
  | a :: l, s =>
    have : Decidable (∀ s', step s a = some s' → SafeRun step Safe s' l) :=
      match step s a with
      | none => isTrue fun _ hs => by cases hs
      | some s' =>
        have := SafeRun.decidable l s'
        decidable_of_iff (SafeRun step Safe s' l) (by simp)
    inferInstanceAs (Decidable (_ ∧ _))

/-- What each safe step keeps is kept by a safe run. -/
theorem SafeRun.inv {Inv : σ → Prop}
    (hstep : ∀ s a s', Inv s → Safe s a → step s a = some s' → Inv s') :
    ∀ (l : List α) (s s' : σ), Inv s → SafeRun step Safe s l → run step s l = some s' → Inv s'
  | [], _, _, hs, _, h => Option.some.inj h ▸ hs
  | a :: l, s, s', hs, ⟨hsafe, hrest⟩, h => by
    obtain ⟨t, ht, hrun⟩ := Option.bind_eq_some_iff.1 h
    exact inv hstep l t s' (hstep s a t hs hsafe ht) (hrest t ht) hrun

/-- A safe run is also good, if a safe step is good in a state with the invariant. -/
theorem SafeRun.of_inv {Inv : σ → Prop} {Good : σ → α → Prop}
    (hstep : ∀ s a, Inv s → Safe s a → Good s a ∧ ∀ s', step s a = some s' → Inv s') :
    ∀ (l : List α) (s : σ), Inv s → SafeRun step Safe s l → SafeRun step Good s l
  | [], _, _, _ => trivial
  | a :: l, s, hs, ⟨hsafe, hrest⟩ =>
    have ⟨hgood, hnext⟩ := hstep s a hs hsafe
    ⟨hgood, fun s' hs' => of_inv hstep l s' (hnext s' hs') (hrest s' hs')⟩

variable {Inv Good : σ → Prop} {Fed : α → Prop}

/-- If a step leads to a good state exactly when it is safe, then all states of a run are good
exactly when the run is safe. -/
theorem forall_prefix_good_iff (hgood : ∀ s, Inv s → Good s)
    (hsafe : ∀ s a, Inv s → Fed a → ((∀ s', step s a = some s' → Good s') ↔ Safe s a))
    (hkeep : ∀ s a s', Inv s → Fed a → step s a = some s' → Good s' → Inv s') :
    ∀ (l : List α) (s : σ), Inv s → (∀ a ∈ l, Fed a) →
      ((∀ l', l' <+: l → ∀ s', run step s l' = some s' → Good s') ↔ SafeRun step Safe s l)
  | [], s, hs, _ => by
    simp only [List.prefix_nil, SafeRun, iff_true]
    rintro _ rfl s' h
    cases h
    exact hgood s hs
  | a :: l, s, hs, hfed => by
    obtain ⟨ha, hl⟩ := List.forall_mem_cons.1 hfed
    have ih := fun s' hs' => forall_prefix_good_iff hgood hsafe hkeep l s' hs' hl
    rw [SafeRun, ← hsafe s a hs ha]
    constructor
    · intro h
      have hstep : ∀ s', step s a = some s' → Good s' := fun s' hs' =>
        h [a] (by simp) s' (by simp [run, hs'])
      refine ⟨hstep, fun s' hs' => (ih s' (hkeep s a s' hs ha hs' (hstep s' hs'))).1 ?_⟩
      intro l' hl' s'' hs''
      exact h (a :: l') (by simpa using hl') s'' (by simp [run, hs', hs''])
    · rintro ⟨hstep, hrest⟩ l' hl' s'' hs''
      cases l' with
      | nil =>
        cases hs''
        exact hgood s hs
      | cons a' l' =>
        obtain ⟨rfl, hrest'⟩ := List.cons_prefix_cons.1 hl'
        obtain ⟨s', hs', hs''⟩ := Option.bind_eq_some_iff.1 hs''
        have hinv := hkeep s a' s' hs ha hs' (hstep s' hs')
        exact (ih s' hinv).2 (hrest s' hs') l' hrest' s'' hs''

theorem run_some (f : σ → α → σ) : ∀ (l : List α) (s : σ),
    run (fun s a => some (f s a)) s l = some (l.foldl f s)
  | [], _ => rfl
  | a :: l, s => run_some f l (f s a)

/-- The same of operations that always succeed. -/
theorem forall_prefix_foldl_good_iff (f : σ → α → σ) (hgood : ∀ s, Inv s → Good s)
    (hsafe : ∀ s a, Inv s → Fed a → (Good (f s a) ↔ Safe s a))
    (hkeep : ∀ s a, Inv s → Fed a → Good (f s a) → Inv (f s a)) (l : List α) (s : σ) (hs : Inv s)
    (hfed : ∀ a ∈ l, Fed a) :
    (∀ l', l' <+: l → Good (l'.foldl f s)) ↔ SafeRun (fun s a => some (f s a)) Safe s l := by
  have hrun := forall_prefix_good_iff (fun s a => some (f s a)) Safe hgood
    (fun s a hs ha => by simpa using hsafe s a hs ha)
    (fun s a s' hs ha heq hgood' => by
      cases heq
      exact hkeep s a hs ha hgood') l s hs hfed
  rw [← hrun]
  simp only [run_some, Option.some.injEq, forall_eq']

end Nerva.Runs
