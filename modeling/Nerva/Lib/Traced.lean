import Mathlib.Data.List.Basic

/-!
# Computations that leave a trace

A computation of `Traced ε α` emits events of type `ε` and may end without a value, by an exception
or by not ending. `Sat` is the rule of reasoning: what every event satisfies, and what the value
satisfies if there is one. Forgetting the events is a map of monads to `Option`.
-/

namespace Loop

section

variable {m : Type → Type} [Monad m] {σ : Type}

/-- A body, repeated. -/
def times (body : σ → m σ) : ℕ → σ → m σ
  | 0, s => pure s
  | n + 1, s => body s >>= times body n

/-- A body, repeated while a condition holds, at most as often as the fuel allows. -/
def whileDo (cond : σ → Bool) (body : σ → m σ) : ℕ → σ → m σ
  | 0, s => pure s
  | fuel + 1, s => if cond s then body s >>= whileDo cond body fuel else pure s

/-- As many values as are asked for, drawn one after another. -/
def consume {β : Type} (draw : σ → m (β × σ)) : ℕ → σ → m (List β × σ)
  | 0, s => pure ([], s)
  | n + 1, s => do
    let (b, s) ← draw s
    let (bs, s) ← consume draw n s
    return (b :: bs, s)

end

variable {σ β τ : Type}

theorem times_one (body : σ → Option σ) (s : σ) : times body 1 s = body s := by
  simp [times]

theorem times_add (body : σ → Option σ) (a b : ℕ) (s : σ) :
    times body (a + b) s = times body a s >>= times body b := by
  induction a generalizing s with
  | zero => simp [times]
  | succ a ih =>
    rw [Nat.succ_add]
    simp only [times]
    rcases body s with _ | s'
    · rfl
    · exact ih s'

/-- A loop whose counter goes up by `step` each turn, and that is left at `limit`, is a loop of a
fixed number of turns. -/
theorem whileDo_eq_times (count : σ → ℕ) (limit : ℕ) {body : σ → Option σ} {step : ℕ}
    (hstep : 0 < step) (hbody : ∀ s s', body s = some s' → count s' = count s + step) :
    ∀ (n fuel : ℕ) (s : σ), n ≤ fuel → count s + n * step = limit →
      whileDo (fun t => decide (count t < limit)) body fuel s = times body n s := by
  intro n
  induction n with
  | zero =>
    intro fuel s _ hlimit
    cases fuel with
    | zero => rfl
    | succ fuel => simp [whileDo, times, ← hlimit]
  | succ n ih =>
    intro fuel s hfuel hlimit
    obtain ⟨fuel, rfl⟩ : ∃ k, fuel = k + 1 := ⟨fuel - 1, by omega⟩
    rw [Nat.succ_mul] at hlimit
    have hlt : count s < limit := by omega
    simp only [whileDo, times, hlt]
    rcases hs : body s with _ | s'
    · rfl
    · exact ih fuel s' (by omega) (by rw [hbody s s' hs]; omega)

/-- Loop fission: what the loop consumes does not depend on what it produces, so that all of it can
be consumed before anything is produced. -/
theorem times_eq_consume (draw : σ → Option (β × σ)) (produce : τ → β → τ) (n : ℕ) (s : σ) (t : τ) :
    times (fun x : σ × τ => (draw x.1).map fun d => (d.2, produce x.2 d.1)) n (s, t) =
      (consume draw n s).map fun d => (d.2, d.1.foldl produce t) := by
  induction n generalizing s t with
  | zero => rfl
  | succ n ih =>
    simp only [times, consume]
    rcases draw s with _ | ⟨b, s'⟩
    · rfl
    · simp only [Option.map_some, Option.bind_eq_bind, Option.bind_some]
      rw [ih]
      rcases consume draw n s' with _ | ⟨bs, s''⟩ <;> rfl

end Loop

/-- A computation with the events it leaves. -/
structure Traced (ε : Type) (α : Type) where
  events : List ε
  /-- None if the computation does not return. -/
  result : Option α

namespace Traced

variable {ε α β : Type} {e : ε} {x : Traced ε α}

protected def bind (x : Traced ε α) (f : α → Traced ε β) : Traced ε β :=
  match x.result with
  | none => ⟨x.events, none⟩
  | some a => ⟨x.events ++ (f a).events, (f a).result⟩

instance : Monad (Traced ε) where
  pure a := ⟨[], some a⟩
  bind := Traced.bind

def emit (e : ε) : Traced ε Unit := ⟨[e], some ()⟩

def lift (x : Option α) : Traced ε α := ⟨[], x⟩

@[simp] theorem events_pure (a : α) : (pure a : Traced ε α).events = [] := rfl

@[simp] theorem result_pure (a : α) : (pure a : Traced ε α).result = some a := rfl

@[simp] theorem result_emit (e : ε) : (emit e).result = some () := rfl

@[simp] theorem result_lift (x : Option α) : (lift x : Traced ε α).result = x := rfl

@[simp] theorem result_bind (x : Traced ε α) (f : α → Traced ε β) :
    (x >>= f).result = x.result >>= fun a => (f a).result := by
  change (Traced.bind x f).result = _
  unfold Traced.bind
  rcases x.result with _ | a <;> rfl

theorem mem_events_bind_right {a : α} {f : α → Traced ε β} (hx : x.result = some a)
    (h : e ∈ (f a).events) : e ∈ (x >>= f).events := by
  change e ∈ (Traced.bind x f).events
  simp only [Traced.bind, hx]
  exact List.mem_append_right _ h

theorem mem_events_bind_left (h : e ∈ x.events) (f : α → Traced ε β) : e ∈ (x >>= f).events := by
  change e ∈ (Traced.bind x f).events
  unfold Traced.bind
  rcases x.result with _ | a
  · exact h
  · exact List.mem_append_left _ h

@[simp] theorem result_times (body : α → Traced ε α) (n : ℕ) (a : α) :
    (Loop.times body n a).result = Loop.times (fun a => (body a).result) n a := by
  induction n generalizing a with
  | zero => rfl
  | succ n ih => simp only [Loop.times, result_bind, ih]

@[simp] theorem result_whileDo (cond : α → Bool) (body : α → Traced ε α) (fuel : ℕ) (a : α) :
    (Loop.whileDo cond body fuel a).result =
      Loop.whileDo cond (fun a => (body a).result) fuel a := by
  induction fuel generalizing a with
  | zero => rfl
  | succ fuel ih =>
    simp only [Loop.whileDo]
    split
    · simp only [result_bind, ih]
    · rfl

@[simp] theorem result_consume {σ : Type} (draw : σ → Traced ε (β × σ)) (n : ℕ) (s : σ) :
    (Loop.consume draw n s).result = Loop.consume (fun s => (draw s).result) n s := by
  induction n generalizing s with
  | zero => rfl
  | succ n ih =>
    simp only [Loop.consume, result_bind, ih]
    rfl

theorem result_foldlM {f : α → β → Traced ε α} {g : α → β → α}
    (h : ∀ a b, (f a b).result = some (g a b)) (l : List β) (a : α) :
    (l.foldlM f a).result = some (l.foldl g a) := by
  induction l generalizing a with
  | nil => rfl
  | cons b l ih =>
    rw [List.foldlM_cons, result_bind, h]
    exact ih (g a b)

/-- Every event satisfies `P`, and the value, if there is one, satisfies `Q`. -/
def Sat (P : ε → Prop) (Q : α → Prop) (x : Traced ε α) : Prop :=
  (∀ e ∈ x.events, P e) ∧ ∀ a, x.result = some a → Q a

/-- Whatever the value, every event satisfies `P`. -/
abbrev Emits (P : ε → Prop) (x : Traced ε α) : Prop := x.Sat P fun _ => True

section Sat

variable {P : ε → Prop} {Q : α → Prop} {R : β → Prop} {x : Traced ε α} {body : α → Traced ε α}

theorem Sat.mono {Q' : α → Prop} (h : x.Sat P Q) (hQ : ∀ a, Q a → Q' a) : x.Sat P Q' :=
  ⟨h.1, fun a ha => hQ a (h.2 a ha)⟩

theorem Sat.imp {P' : ε → Prop} (h : x.Sat P Q) (hP : ∀ e, P e → P' e) : x.Sat P' Q :=
  ⟨fun e he => hP e (h.1 e he), h.2⟩

theorem Sat.pure {a : α} (h : Q a) : (Pure.pure a : Traced ε α).Sat P Q := by
  refine ⟨by simp, fun b hb => ?_⟩
  rw [← Option.some.inj hb]
  exact h

theorem Sat.emit {e : ε} (h : P e) : (emit e).Emits P := by
  refine ⟨fun e' he' => ?_, fun _ _ => trivial⟩
  rw [List.mem_singleton.mp he']
  exact h

theorem Sat.lift {x : Option α} (h : ∀ a, x = some a → Q a) : (lift x).Sat P Q :=
  ⟨fun _ he => (List.not_mem_nil he).elim, h⟩

theorem Sat.bind {f : α → Traced ε β} (hx : x.Sat P Q) (hf : ∀ a, Q a → (f a).Sat P R) :
    (x >>= f).Sat P R := by
  change (Traced.bind x f).Sat P R
  unfold Traced.bind
  rcases hr : x.result with _ | a
  · exact ⟨hx.1, fun b hb => by simp at hb⟩
  · have ha := hf a (hx.2 a hr)
    refine ⟨fun e he => ?_, ha.2⟩
    rcases List.mem_append.mp he with he | he
    · exact hx.1 e he
    · exact ha.1 e he

theorem Sat.ret {g : α → β} (hx : x.Sat P Q) : (x >>= fun a => Pure.pure (g a)).Emits P :=
  hx.bind fun _ _ => Sat.pure trivial

theorem Sat.times (hbody : ∀ a, (body a).Emits P) (n : ℕ) :
    ∀ a, (Loop.times body n a).Emits P := by
  induction n with
  | zero => exact fun _ => Sat.pure trivial
  | succ n ih => exact fun a => (hbody a).bind fun b _ => ih b

theorem Sat.whileDo {cond : α → Bool} (hbody : ∀ a, (body a).Emits P) (fuel : ℕ) :
    ∀ a, (Loop.whileDo cond body fuel a).Emits P := by
  induction fuel with
  | zero => exact fun _ => Sat.pure trivial
  | succ fuel ih =>
    intro a
    simp only [Loop.whileDo]
    split
    · exact (hbody a).bind fun b _ => ih b
    · exact Sat.pure trivial

theorem Sat.consume {draw : α → Traced ε (β × α)} {n : ℕ}
    (hdraw : ∀ a, (draw a).Sat P fun d => R d.1) :
    ∀ a, (Loop.consume draw n a).Sat P fun d => ∀ b ∈ d.1, R b := by
  induction n with
  | zero => exact fun _ => Sat.pure fun b hb => (List.not_mem_nil hb).elim
  | succ n ih =>
    intro a
    refine (hdraw a).bind fun d hd => (ih d.2).bind fun ds hds => Sat.pure fun b hb => ?_
    rcases List.mem_cons.mp hb with rfl | hb
    · exact hd
    · exact hds b hb

theorem Sat.foldlM {f : α → β → Traced ε α} {l : List β}
    (hf : ∀ a, ∀ b ∈ l, (f a b).Emits P) : ∀ a, (l.foldlM f a).Emits P := by
  induction l with
  | nil => exact fun _ => Sat.pure trivial
  | cons b l ih =>
    intro a
    exact (hf a b List.mem_cons_self).bind fun a' _ =>
      ih (fun a b' hb' => hf a b' (List.mem_cons_of_mem _ hb')) a'

end Sat

end Traced
