import Mathlib.Data.List.Basic

/-!
# Resumable machines

A machine reads what it has been fed, a step at a time, and waits when that is not enough. More
input does not change a step that has been taken, so that the machine does the same however its
input is cut.
-/

/-- A step waits for input, comes to an end or goes on, with what it gives out. -/
inductive Machine.Step (S O : Type*)
  | wait
  | halt (out : List O)
  | go (out : List O) (next : S)

def Machine.Step.map {S O : Type*} (f : S → S) : Machine.Step S O → Machine.Step S O
  | .wait => .wait
  | .halt out => .halt out
  | .go out next => .go out (f next)

def Machine.Step.out {S O : Type*} : Machine.Step S O → List O
  | .wait => []
  | .halt out => out
  | .go out _ => out

/-- A machine with states `S`, outputs `O` and input elements `B`. -/
structure Machine (S O B : Type*) where
  step : S → Machine.Step S O
  feed : S → List B → S
  size : S → ℕ
  feed_feed : ∀ s a b, feed (feed s a) b = feed s (a ++ b)
  size_lt : ∀ {s out s'}, step s = .go out s' → size s' < size s
  step_feed : ∀ {s} (b : List B), step s ≠ .wait → step (feed s b) = (step s).map (feed · b)

namespace Machine

variable {S O B : Type*} (m : Machine S O B) {s s' : S} {out : List O}

/-- At most `n` steps: the outputs, and the state the machine waits in unless it halts. -/
def steps : ℕ → S → List O × Option S
  | 0, s => ([], some s)
  | n + 1, s =>
    match m.step s with
    | .wait => ([], some s)
    | .halt out => (out, none)
    | .go out s' => (out ++ (steps n s').1, (steps n s').2)

/-- All steps that can be made on the present input. -/
def run (s : S) : List O × Option S := m.steps (m.size s + 1) s

theorem steps_eq_run : ∀ {n : ℕ} {s : S}, m.size s < n → m.steps n s = m.run s := by
  -- any two amounts that are enough give the same
  have hsame : ∀ {n k : ℕ} {s : S}, m.size s < n → m.size s < k → m.steps n s = m.steps k s := by
    intro n
    induction n with
    | zero => exact fun h => absurd h (Nat.not_lt_zero _)
    | succ n ih =>
      intro k s hn hk
      cases k with
      | zero => exact absurd hk (Nat.not_lt_zero _)
      | succ k =>
        unfold steps
        cases hstep : m.step s with
        | wait => rfl
        | halt out => rfl
        | go out s' =>
          have hlt := m.size_lt hstep
          simp only []
          rw [ih (k := k) (by omega) (by omega)]
  exact fun {_ _} h => hsame h (Nat.lt_succ_self _)

theorem run_wait (h : m.step s = .wait) : m.run s = ([], some s) := by
  unfold run steps
  rw [h]

theorem run_halt (h : m.step s = .halt out) : m.run s = (out, none) := by
  unfold run steps
  rw [h]

theorem run_go (h : m.step s = .go out s') : m.run s = (out ++ (m.run s').1, (m.run s').2) := by
  have hlt := m.size_lt h
  rw [← m.steps_eq_run hlt]
  unfold run
  rw [steps, h]

theorem go_feed (b : List B) (h : m.step s = .go out s') :
    m.step (m.feed s b) = .go out (m.feed s' b) := by
  rw [m.step_feed b (by simp [h]), h]
  rfl

theorem halt_feed (b : List B) (h : m.step s = .halt out) : m.step (m.feed s b) = .halt out := by
  rw [m.step_feed b (by simp [h]), h]
  rfl

/-- Induction on a run by its first step. -/
theorem run_induction {motive : S → Prop} (wait : ∀ s, m.step s = .wait → motive s)
    (halt : ∀ s out, m.step s = .halt out → motive s)
    (go : ∀ s out s', m.step s = .go out s' → motive s' → motive s) (s : S) : motive s := by
  suffices ∀ n s, m.size s < n → motive s from this _ s (Nat.lt_succ_self _)
  intro n
  induction n with
  | zero => exact fun s h => absurd h (Nat.not_lt_zero _)
  | succ n ih =>
    intro s hn
    cases hstep : m.step s with
    | wait => exact wait s hstep
    | halt out => exact halt s out hstep
    | go out s' =>
      have hlt := m.size_lt hstep
      exact go s out s' hstep (ih s' (by omega))

/-- A run on more input resumes where the run before it waits. -/
theorem run_feed_of_wait (b : List B) (h : m.run s = (out, some s')) :
    m.run (m.feed s b) = (out ++ (m.run (m.feed s' b)).1, (m.run (m.feed s' b)).2) := by
  induction s using m.run_induction generalizing out with
  | wait s hs =>
    rw [m.run_wait hs] at h
    cases h
    rfl
  | halt s out hs =>
    rw [m.run_halt hs] at h
    cases h
  | go s out next hs ih =>
    rw [m.run_go hs] at h
    obtain ⟨hout, hlast⟩ := Prod.mk.inj h
    rw [m.run_go (m.go_feed b hs), ih (Prod.ext rfl hlast), ← hout, List.append_assoc]

/-- A run that has ended does not see more input. -/
theorem run_feed_of_halt (b : List B) (h : m.run s = (out, none)) :
    m.run (m.feed s b) = (out, none) := by
  induction s using m.run_induction generalizing out with
  | wait s hs =>
    rw [m.run_wait hs] at h
    cases h
  | halt s out hs =>
    rw [m.run_halt hs] at h
    rw [m.run_halt (m.halt_feed b hs), h]
  | go s out next hs ih =>
    rw [m.run_go hs] at h
    rw [← h, m.run_go (m.go_feed b hs), ih (Prod.ext rfl (Prod.mk.inj h).2), (Prod.mk.inj h).2]

theorem step_of_run (h : (m.run s).2 = some s') : m.step s' = .wait := by
  induction s using m.run_induction with
  | wait s hs =>
    rw [m.run_wait hs] at h
    exact Option.some.inj h ▸ hs
  | halt s out hs =>
    rw [m.run_halt hs] at h
    cases h
  | go s out next hs ih =>
    rw [m.run_go hs] at h
    exact ih h

/-- The states the machine passes as it runs. -/
inductive Visits (m : Machine S O B) : S → S → Prop
  | here (s : S) : m.Visits s s
  | next {s s' t : S} {out : List O} (hstep : m.step s = .go out s') (hrest : m.Visits s' t) :
    m.Visits s t

theorem visits_of_run (h : (m.run s).2 = some s') : m.Visits s s' := by
  induction s using m.run_induction with
  | wait s hs =>
    rw [m.run_wait hs] at h
    exact Option.some.inj h ▸ .here s
  | halt s out hs =>
    rw [m.run_halt hs] at h
    cases h
  | go s out next hs ih =>
    rw [m.run_go hs] at h
    exact .next hs (ih h)

/-- What every step keeps holds of all states that are visited. -/
theorem Visits.invariant {m : Machine S O B} {P : S → Prop}
    (hstep : ∀ {s out s'}, P s → m.step s = .go out s' → P s') {t : S} (hvisits : m.Visits s t)
    (h : P s) : P t := by
  induction hvisits with
  | here s => exact h
  | next hgo _ ih => exact ih (hstep h hgo)

end Machine
