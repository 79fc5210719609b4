import Nerva.Lib.Checks

/-!
# Code that throws

A call either returns or throws, and what it throws may carry the state it leaves behind. `Ensures`
says what holds in either case; the rules follow the sequence, the tests and the loops of the code.
-/

namespace Throwing

open Checks List

variable {ε ε' α β σ : Type} {P P' : α → Prop} {Q Q' : ε → Prop} {f : α → Except ε β}

/-- A computation that returns with the first condition or throws with the second. -/
def Ensures (P : α → Prop) (Q : ε → Prop) : Except ε α → Prop
  | .ok a => P a
  | .error e => Q e

namespace Ensures

variable {a : α} {f : α → Except ε β} {step : σ → α → Except ε σ}

variable {e : ε} {x : Except ε α} {R : β → Prop}

theorem mono (h : Ensures P Q x) (hP : ∀ a, P a → P' a) (hQ : ∀ e, Q e → Q' e) :
    Ensures P' Q' x := by
  cases x with
  | ok a => exact hP a h
  | error e => exact hQ e h

/-- The rule for a sequence. -/
theorem bind (hx : Ensures P Q x) (hf : ∀ a, P a → Ensures R Q (f a)) : Ensures R Q (x >>= f) := by
  cases x with
  | ok a => exact hf a hx
  | error e => exact hx

/-- The rule for a check. -/
theorem require_bind {c : Prop} [Decidable c] {f : Unit → Except ε β} (herror : ¬c → Q e)
    (hok : c → Ensures R Q (f ())) : Ensures R Q (require c e >>= f) := by
  unfold require
  split
  · next h => exact hok h
  · next h => exact herror h

/-- The rule for a value that may be missing. -/
theorem demand_bind {o : Option α} (herror : o = none → Q e)
    (hok : ∀ a, o = some a → Ensures R Q (f a)) : Ensures R Q (demand o e >>= f) := by
  cases o with
  | none => exact herror rfl
  | some a => exact hok a rfl

/-- The rule for a loop with an invariant. -/
theorem foldlM {P : σ → Prop} :
    ∀ (l : List α) (s : σ), P s → (∀ s, ∀ a ∈ l, P s → Ensures P Q (step s a)) →
      Ensures P Q (l.foldlM step s)
  | [], _, hs, _ => hs
  | a :: l, s, hs, hstep => by
    exact (hstep s a mem_cons_self hs).bind fun s' hs' =>
      foldlM l s' hs' fun t b hb ht => hstep t b (mem_cons_of_mem _ hb) ht

/-- The rule for a loop whose invariant knows what has been done. -/
theorem foldlM_done {l : List α} {I : List α → σ → Prop}
    (hstep : ∀ done a rest s, l = done ++ a :: rest → I done s →
      Ensures (I (done ++ [a])) Q (step s a)) :
    ∀ (done rest : List α) (s : σ), l = done ++ rest → I done s →
      Ensures (I l) Q (rest.foldlM step s)
  | done, [], s, hl, hs => by
    rw [append_nil] at hl
    exact hl ▸ hs
  | done, a :: rest, s, hl, hs => by
    exact (hstep done a rest s hl hs).bind fun s' hs' =>
      foldlM_done hstep (done ++ [a]) rest s' (by simp [hl]) hs'

/-- The rule for a loop over numbered elements that only changes what is at or below the present
number. -/
theorem foldlM_zipIdx {τ : Type} {I : σ → Prop} (look : σ → ℕ → Option τ) {R : ℕ → α → τ → Prop}
    {step : σ → α × ℕ → Except ε σ}
    (hstep : ∀ s a idx, I s → (∀ t, look s idx = some t → R idx a t) →
      Ensures (fun s' => I s' ∧ ∀ j, idx < j → look s' j = look s j) Q (step s (a, idx))) :
    ∀ (l : List α) (offset : ℕ) (s : σ), I s →
      (∀ i a t, l[i]? = some a → look s (offset + i) = some t → R (offset + i) a t) →
      Ensures I Q ((l.zipIdx offset).foldlM step s)
  | [], _, _, hs, _ => hs
  | a :: l, offset, s, hs, hR => by
    refine (hstep s a offset hs fun t ht => hR 0 a t rfl ht).bind fun s' ⟨hs', hlook⟩ => ?_
    refine foldlM_zipIdx look hstep l (offset + 1) s' hs' fun i b t hb ht => ?_
    rw [hlook _ (by omega), Nat.add_right_comm] at ht
    rw [Nat.add_right_comm]
    exact hR (i + 1) b t hb ht

theorem map {f : α → β} (h : Ensures P Q x) (hR : ∀ a, P a → R (f a)) : Ensures R Q (x.map f) := by
  cases x with
  | ok a => exact hR a h
  | error e => exact h

theorem mapError {R : ε' → Prop} {f : ε → ε'} (h : Ensures P Q x) (hR : ∀ e, Q e → R (f e)) :
    Ensures P R (x.mapError f) := by
  cases x with
  | ok a => exact h
  | error e => exact hR e h

end Ensures

theorem mapM_ok {g : α → β} :
    ∀ (l : List α), (∀ a ∈ l, f a = .ok (g a)) → l.mapM f = .ok (l.map g)
  | [], _ => rfl
  | a :: l, h => by
    rw [mapM_cons, h a mem_cons_self, mapM_ok l fun b hb => h b (mem_cons_of_mem _ hb)]
    rfl

theorem exists_ok_of_any {x : Except ε α} {p : α → Bool} (h : x.toOption.any p = true) :
    ∃ a, x = .ok a ∧ p a = true := by
  cases x with
  | ok a => exact ⟨a, rfl, h⟩
  | error e => cases h

end Throwing
