import Nerva.ThreadPool
import Nerva.Lib.Totals
import Mathlib.Data.List.Nodup
import Mathlib.Tactic.Linarith

/-!
# Waiting on the thread pool

Every submitted task is in one place: in the queue, in a `submit` about to put it there, running on
a stack, or finished. A nested task queues leaf tasks only, so that what it waits for runs on top of
a stack; a caller that waits has left the queue empty, and whatever it waits for is on a stack that
does not sleep (`Inv.done_of_blocked`). Each step but a spurious wake-up makes `State.work` smaller
(`Inv.go`).
-/

namespace Nerva.Pool

open List State

namespace Activation

@[simp] def running (x : ℕ × ℕ) : Activation → ℕ
  | .run _ (.call e) => if e.mark = x then 1 else 0
  | .code w _ _ (.inPlace id) => if (id, w) = x then 1 else 0
  | _ => 0

@[simp] def pushes (x : ℕ × ℕ) : Activation → ℕ
  | .code _ _ _ (.pushing e) => if e.mark = x then 1 else 0
  | _ => 0

/-- What is counted in the waiter's `num` for a task outside the queue. -/
@[simp] def owed (w : ℕ) : Activation → ℕ
  | .run _ (.call e) => if e.wo = w then 1 else 0
  | .run _ (.dec e) => if e.wo = w then 1 else 0
  | .code _ _ _ (.pushing e) => if e.wo = w then 1 else 0
  | _ => 0

/-- The code has the waiter, or is about to queue the task that will have it. -/
@[simp] def owns (w : ℕ) : Activation → ℕ
  | .code w' _ _ (.pushing e) => (if w' = w then 1 else 0) + if e.id = w then 1 else 0
  | .code w' _ _ _ => if w' = w then 1 else 0
  | _ => 0

/-- The code has the waiter, and has not been through `run(true)` in this round. -/
@[simp] def busy (w : ℕ) : Activation → ℕ
  | .code _ _ _ .idle => 0
  | .code _ _ _ .test => 0
  | .code w' _ _ _ => if w' = w then 1 else 0
  | _ => 0

@[simp] def holds : Activation → Bool
  | .code _ _ _ (.pushing _) => true
  | .run _ .head => true
  | _ => false

@[simp] def suspended : Activation → Bool
  | .code _ _ _ (.inPlace _) => true
  | .code _ _ _ .flush => true
  | .run _ (.call _) => true
  | _ => false

end Activation

section Stacks

variable (n i : ℕ)

/-- The tasks' ids and waiters come after those of the threads; a nested task queues leaf tasks. -/
def Entry.Ok (e : Entry) : Prop := n ≤ e.id ∧ (n ≤ e.wo → e.task.isLeaf)

/-- What an activation on a stack knows at its point. -/
def Activation.Ok : Activation → Prop
  | .code _ todo _ .flush => todo = []
  | .code _ todo _ .test => todo = []
  | .code w _ _ (.pushing e) => e.wo = w ∧ e.Ok n
  | .run _ (.call e) => e.Ok n
  | _ => True

/-- An activation stands on the one that called it. -/
def CalledBy (caller : Activation) : Activation → Prop
  | .leaf => ∃ flush e, caller = .run flush (.call e) ∧ e.task.isLeaf
  | .code k _ _ _ => n ≤ k ∧ ((∃ flush e, caller = .run flush (.call e) ∧ ¬e.task.isLeaf) ∨
      ∃ w todo rounds, caller = .code w todo rounds (.inPlace k))
  | .run flush _ => flush ∧ ∃ w rounds, caller = .code w [] rounds .flush

/-- The first activation of a thread: a caller's own code, or the worker's loop. -/
def Bottom : Activation → Prop
  | .leaf => False
  | .code w _ _ _ => w = i
  | .run flush _ => flush = false

/-- The activations below one, down to the bottom of the stack. -/
def Below : Activation → Stack → Prop
  | a, [] => Bottom i a
  | a, caller :: st => CalledBy n caller a ∧ caller.Ok n ∧ Below caller st

/-- The top of a stack is running and everything below it is suspended. -/
def WellFormed : Stack → Prop
  | [] => True
  | a :: st => ¬a.suspended ∧ a.Ok n ∧ Below n i a st

variable {n i} {st : Stack} {pt : CodePoint} {rounds : List (List Task)} {todo : List Task} {w : ℕ}
  {flush : Bool}

theorem Below.code {todo' : List Task} {rounds' : List (List Task)} {pt' : CodePoint}
    (h : Below n i (.code w todo rounds pt) st) : Below n i (.code w todo' rounds' pt') st := by
  cases st <;> exact h

theorem Below.run {pt pt' : RunPoint} (h : Below n i (.run flush pt) st) :
    Below n i (.run flush pt') st := by
  cases st <;> exact h

theorem Below.depth_pos (h : Below n i (.code w todo rounds pt) st) (hi : i < n) (hw : n ≤ w) :
    0 < depth st := by
  cases st with
  | nil =>
    have : w = i := h
    omega
  | cons caller st =>
    have hcalls : caller.calls := by
      rcases h.1.2 with ⟨flush, e, rfl, -⟩ | ⟨w, todo, rounds, rfl⟩ <;> rfl
    simp [depth, hcalls]

theorem Below.suspended : ∀ {st : Stack} {a b : Activation}, Below n i a st → b ∈ st → b.suspended
  | caller :: st, a, b, h, hb => by
    rcases mem_cons.mp hb with rfl | hb
    · cases a with
      | leaf =>
        obtain ⟨flush, e, rfl, -⟩ := h.1
        rfl
      | code k todo rounds pt =>
        rcases h.1.2 with ⟨flush, e, rfl, -⟩ | ⟨w, todo', rounds', rfl⟩ <;> rfl
      | run flush pt =>
        obtain ⟨-, w, rounds, rfl⟩ := h.1
        rfl
    · exact h.2.2.suspended hb

theorem Below.ok : ∀ {st : Stack} {a b : Activation}, Below n i a st → b ∈ st → b.Ok n
  | caller :: st, a, b, h, hb => by
    rcases mem_cons.mp hb with rfl | hb
    · exact h.2.1
    · exact h.2.2.ok hb

theorem Below.leaf_of_call {e : Entry} (he : e.task.isLeaf) :
    ∀ {st : Stack} {a : Activation}, Below n i a st → .run flush (.call e) ∈ st → a = .leaf
  | caller :: st, a, h, hcall => by
    rcases mem_cons.mp hcall with rfl | hcall
    · cases a with
      | leaf => rfl
      | code k todo rounds pt =>
        rcases h.1.2 with ⟨flush', e', heq, hleaf⟩ | ⟨w, todo', rounds', heq⟩
        · cases heq
          exact absurd he hleaf
        · cases heq
      | run flush' pt =>
        obtain ⟨-, w, rounds, heq⟩ := h.1
        cases heq
    · obtain rfl := h.2.2.leaf_of_call he hcall
      have := h.suspended (mem_cons_self)
      cases this

end Stacks

/-- What the counters record agrees with the queue and the stacks. -/
structure Counts (s : State) : Prop where
  pending : ∀ x, (s.queue.map Entry.mark).count x + total (Activation.running x) s.threads +
    total (Activation.pushes x) s.threads + s.finished.count x = s.submitted.count x
  started : ∀ x, (s.queue.map Entry.mark).count x + total (Activation.pushes x) s.threads +
    s.started.count x = s.submitted.count x
  num : ∀ w, s.num w = ((s.queue.map Entry.wo).count w + total (Activation.owed w) s.threads : ℕ)
  owns : ∀ w, total (Activation.owns w) s.threads + (s.queue.map Entry.id).count w ≤ 1
  fresh : ∀ w, s.fresh ≤ w → total (Activation.owns w) s.threads +
    (s.queue.map Entry.id).count w = 0 ∧ (s.submitted.map Prod.fst).count w = 0
  ids : (s.submitted.map Prod.fst).Nodup
  busy : ∀ e ∈ s.queue, 0 < total (Activation.busy e.wo) s.threads

section Counts

variable {s s' : State} {i : ℕ} {old new st : Stack}

def part (g : Activation → ℕ) (l : Stack) : ℕ := (l.map g).sum

@[simp] theorem part_nil (g : Activation → ℕ) : part g [] = 0 := rfl

@[simp] theorem part_cons (g : Activation → ℕ) (a : Activation) (l : Stack) :
    part g (a :: l) = g a + part g l := sum_cons

/-- What the step of one thread, from `old` to `new` at the top of its stack, does to the counts: it
submits nothing, or a task with the next id. -/
structure Move (old new : Stack) (s s' : State) : Prop where
  pending : ∀ x, (s'.queue.map Entry.mark).count x + part (Activation.running x) new +
      part (Activation.pushes x) new + s'.finished.count x + s.submitted.count x =
    (s.queue.map Entry.mark).count x + part (Activation.running x) old +
      part (Activation.pushes x) old + s.finished.count x + s'.submitted.count x
  started : ∀ x, (s'.queue.map Entry.mark).count x + part (Activation.pushes x) new +
      s'.started.count x + s.submitted.count x =
    (s.queue.map Entry.mark).count x + part (Activation.pushes x) old + s.started.count x +
      s'.submitted.count x
  num : ∀ w, s'.num w + ((s.queue.map Entry.wo).count w + part (Activation.owed w) old : ℕ) =
    s.num w + ((s'.queue.map Entry.wo).count w + part (Activation.owed w) new : ℕ)
  owns : ∀ w, part (Activation.owns w) new + (s'.queue.map Entry.id).count w ≤
    part (Activation.owns w) old + (s.queue.map Entry.id).count w +
      if s'.submitted ≠ s.submitted ∧ w = s.fresh then 1 else 0
  ids : s'.submitted = s.submitted ∧ s'.fresh = s.fresh ∨
    (∃ w, s'.submitted = (s.fresh, w) :: s.submitted) ∧ s'.fresh = s.fresh + 1
  busy : ∀ e ∈ s'.queue, e ∈ s.queue ∧
      part (Activation.busy e.wo) old ≤ part (Activation.busy e.wo) new ∨
    0 < part (Activation.busy e.wo) new

/-- A step that replaces the top of one stack keeps the counts, if they add up there. -/
theorem Counts.move (h : Counts s) (hst : s.threads[i]? = some (old ++ st))
    (hthreads : s'.threads = s.threads.set i (new ++ st)) (hm : Move old new s s') : Counts s' := by
  have ht : ∀ g, total g s'.threads + part g old = total g s.threads + part g new := fun g => by
    rw [hthreads]
    exact total_set g new hst
  constructor
  · intro x
    have hrunning := ht (Activation.running x)
    have hpushes := ht (Activation.pushes x)
    have := h.pending x
    have := hm.pending x
    omega
  · intro x
    have hpushes := ht (Activation.pushes x)
    have := h.started x
    have := hm.started x
    omega
  · intro w
    have howed := ht (Activation.owed w)
    have := h.num w
    have := hm.num w
    omega
  · intro w
    have howns := ht (Activation.owns w)
    have := h.owns w
    have := hm.owns w
    split_ifs at this with hw
    · have := h.fresh w hw.2.ge
      omega
    · omega
  · intro w hw
    have howns := ht (Activation.owns w)
    have hle := hm.owns w
    rcases hm.ids with ⟨hsub, hfresh⟩ | ⟨⟨w', hsub⟩, hfresh⟩
    · have := h.fresh w (hfresh ▸ hw)
      rw [if_neg (by simp [hsub])] at hle
      rw [hsub]
      omega
    · have := h.fresh w (by omega)
      rw [if_neg (by omega)] at hle
      rw [hsub, map_cons, count_cons_of_ne (by simp; omega)]
      omega
  · rcases hm.ids with ⟨hsub, -⟩ | ⟨⟨w, hsub⟩, -⟩
    · rw [hsub]
      exact h.ids
    · rw [hsub, map_cons, nodup_cons]
      exact ⟨count_eq_zero.mp (h.fresh s.fresh le_rfl).2, h.ids⟩
  · intro e he
    have hbusy := ht (Activation.busy e.wo)
    rcases hm.busy e he with ⟨he', hle⟩ | hpos
    · have := h.busy e he'
      omega
    · have hrest : _ + part (Activation.busy e.wo) old = total (Activation.busy e.wo) s.threads :=
        total_set (Activation.busy e.wo) [] hst
      omega

end Counts

mutual

/-- An upper bound for the steps that a task still takes. -/
def Task.cost : Task → ℕ
  | .leaf => 1
  | .node rounds => 1 + roundsCost rounds

@[simp] def roundsCost : List (List Task) → ℕ
  | [] => 0
  | todo :: rounds => 5 + tasksCost todo + roundsCost rounds

@[simp] def tasksCost : List Task → ℕ
  | [] => 0
  | t :: todo => t.cost + 9 + tasksCost todo

end

@[simp] def Activation.cost : Activation → ℕ
  | .leaf => 1
  | .code _ _ rounds .idle => 1 + roundsCost rounds
  | .code _ todo rounds .next => 5 + tasksCost todo + roundsCost rounds
  | .code _ todo rounds (.pushing e) => 13 + e.task.cost + tasksCost todo + roundsCost rounds
  | .code _ todo rounds (.inPlace _) => 5 + tasksCost todo + roundsCost rounds
  | .code _ _ rounds .flush => 2 + roundsCost rounds
  | .code _ _ rounds .test => 2 + roundsCost rounds
  | .run _ .lock => 2
  | .run _ .head => 1
  | .run _ (.call _) => 5
  | .run _ (.dec _) => 5
  | .run _ .relock => 2

theorem cost_start (id : ℕ) (t : Task) : (t.start id).cost = t.cost := by
  cases t <;> simp [Task.start, Task.cost]

def queueCost (queue : List Entry) : ℕ := (queue.map fun e => e.task.cost + 5).sum

def State.awake (s : State) : ℕ := (range s.threads.length).countP fun j => !s.asleep j

/-- A thread that sleeps has less to do than one that is awake: it would have to look. -/
def State.work (s : State) : ℕ :=
  total Activation.cost s.threads + queueCost s.queue + 2 * s.awake

open Activation

section Work

variable {s s' : State} {i : ℕ} {old new : Stack} {k : ℕ}

section

variable (hlen : s'.threads.length = s.threads.length)

include hlen

theorem awake_of_same (hasleep : s'.asleep = s.asleep) : s'.awake = s.awake := by
  rw [awake, awake, hlen, hasleep]

theorem awake_le (hasleep : ∀ j, s'.asleep j = false → s.asleep j = false ∨ j = k) :
    s'.awake ≤ s.awake + 1 := by
  have hle : s'.awake ≤ s.awake + (range s.threads.length).count k := by
    rw [awake, hlen]
    exact countP_le_add_count fun j _ hj => by simpa using hasleep j (by simpa using hj)
  have hone := nodup_iff_count_le_one.mp (nodup_range (n := s.threads.length)) k
  omega

theorem awake_lt (hi : i < s.threads.length) (hawake : s.asleep i = false)
    (hasleep : s'.asleep = Function.update s.asleep i true) : s'.awake + 1 ≤ s.awake := by
  have hle : s'.awake + (range s.threads.length).count i ≤ s.awake := by
    rw [awake, hlen]
    refine countP_add_count_le (fun j _ hj => ?_) (by simp [hawake])
    by_cases hij : j = i
    · simp [hasleep, hij] at hj
    · exact ⟨by simpa [hasleep, hij] using hj, hij⟩
  have hone : 0 < (range s.threads.length).count i :=
    count_pos_iff.mpr (mem_range.mpr hi)
  omega

end

theorem work_le_of_woken {asleep : ℕ → Bool}
    (hasleep : ∀ j, asleep j = false → s.asleep j = false ∨ j = k) :
    work { s with asleep } ≤ s.work + 2 := by
  have hawake : awake { s with asleep } ≤ s.awake + 1 := awake_le rfl hasleep
  unfold work
  simp only
  omega

/-- The step has used up some work. -/
def LessWork (old new : Stack) (s s' : State) : Prop :=
  part cost new + queueCost s'.queue + 2 * s'.awake <
    part cost old + queueCost s.queue + 2 * s.awake

theorem LessWork.of_same (hqueue : s'.queue = s.queue)
    (hlen : s'.threads.length = s.threads.length) (hasleep : s'.asleep = s.asleep)
    (hlt : part cost new < part cost old) : LessWork old new s s' := by
  rw [LessWork, hqueue, awake_of_same hlen hasleep]
  omega

theorem LessWork.of_woken (hlen : s'.threads.length = s.threads.length)
    (hasleep : ∀ j, s'.asleep j = false → s.asleep j = false ∨ j = k)
    (hlt : part cost new + queueCost s'.queue + 2 < part cost old + queueCost s.queue) :
    LessWork old new s s' := by
  have hle := awake_le hlen hasleep
  unfold LessWork
  omega

end Work

/-- Where a thread may sleep: the worker at its lock, and a `wait` with tasks left. -/
def Resting (num : ℕ → ℤ) (a : Activation) : Prop :=
  a = .run false .lock ∨ ∃ w rounds, a = .code w [] rounds .test ∧ num w ≠ 0

/-- The invariant of the pool. -/
structure Inv (n : ℕ) (s : State) : Prop where
  length : s.threads.length = n
  stack : ∀ i st, s.threads[i]? = some st → WellFormed n i st
  lock : ∀ i, s.lock = some i ↔ ∃ a, s.top i = some a ∧ a.holds
  queue : ∀ e ∈ s.queue, e.Ok n
  fresh : n ≤ s.fresh
  asleep : ∀ i, s.asleep i → ∃ a, s.top i = some a ∧ Resting s.num a
  counts : Counts s

section Inv

variable {n : ℕ} {s s' : State} {i j : ℕ} {a : Activation} {old new st : Stack} {max woken : ℕ}

theorem State.top_eq (hst : s.threads[i]? = some (a :: st)) : s.top i = some a := by
  simp [top, hst]

theorem State.top_of_set_ne (hthreads : s'.threads = s.threads.set i st) (hj : j ≠ i) :
    s'.top j = s.top j := by
  rw [top, top, hthreads, getElem?_set_ne hj.symm]

theorem State.top_of_set (hst : s.threads[i]? = some old)
    (hthreads : s'.threads = s.threads.set i st) : s'.top i = st.head? := by
  have hi := (List.getElem?_eq_some_iff.mp hst).1
  rw [top, hthreads, getElem?_set_self hi]
  rfl

theorem Inv.wellFormed (h : Inv n s) (hst : s.threads[i]? = some (a :: st)) :
    ¬a.suspended ∧ a.Ok n ∧ Below n i a st :=
  h.stack i _ hst

theorem Inv.below (h : Inv n s) (hst : s.threads[i]? = some (a :: st)) : Below n i a st :=
  (h.wellFormed hst).2.2

theorem asleep_of_le (hawake : s.asleep i = false) (hasleep : ∀ j, s'.asleep j → s.asleep j)
    (hnum : ∀ w, s.num w ≠ 0 → s'.num w ≠ 0) (j : ℕ) (hj : s'.asleep j) :
    j ≠ i ∧ s.asleep j ∧ (∀ a, s.top j = some a → Resting s.num a → Resting s'.num a) ∨
      j = i ∧ ∃ a, (new ++ st).head? = some a ∧ Resting s'.num a := by
  have hj := hasleep j hj
  refine .inl ⟨fun hij => by simp [hij, hawake] at hj, hj, fun a _ hrest => ?_⟩
  rcases hrest with rfl | ⟨w, rounds, rfl, hw⟩
  · exact .inl rfl
  · exact .inr ⟨w, rounds, rfl, hnum w hw⟩

theorem Inv.lock_iff (h : Inv n s) (hst : s.threads[i]? = some (a :: st)) :
    s.lock = some i ↔ a.holds := by
  rw [h.lock, top_eq hst]
  simp

/-- The step leaves the queue, the waiters and the tasks alone. -/
theorem Move.quiet {threads : List Stack} {asleep : ℕ → Bool} {lock : Option ℕ} {active : ℕ}
    (hparts : ∀ x w, part (Activation.running x) new = part (Activation.running x) old ∧
      part (Activation.pushes x) new = part (Activation.pushes x) old ∧
      part (Activation.owed w) new = part (Activation.owed w) old ∧
      part (Activation.owns w) new ≤ part (Activation.owns w) old)
    (hbusy : s.queue = [] ∨ ∀ w, part (Activation.busy w) old ≤ part (Activation.busy w) new) :
    Move old new s { s with threads, asleep, lock, active } where
  pending x := by rw [(hparts x 0).1, (hparts x 0).2.1]
  started x := by rw [(hparts x 0).2.1]
  num w := by rw [(hparts 0 w).2.2.1]
  owns w := by
    have := (hparts 0 w).2.2.2
    simp only
    omega
  ids := .inl ⟨rfl, rfl⟩
  busy e he := by
    rcases hbusy with hnil | hle
    · simp [hnil] at he
    · exact .inl ⟨he, hle e.wo⟩

/-- What one step of a thread changes, and that it leaves things in order. -/
structure Inv.Change (n i : ℕ) (old new st : Stack) (s s' : State) : Prop where
  threads : s'.threads = s.threads.set i (new ++ st)
  move : Move old new s s'
  work : LessWork old new s s'
  wellFormed : WellFormed n i (new ++ st)
  queue : ∀ e ∈ s'.queue, e ∈ s.queue ∨ e.Ok n
  lock : s'.lock = some i ↔ ∃ a, (new ++ st).head? = some a ∧ a.holds
  unlocked : ∀ j ≠ i, (s'.lock = some j ↔ s.lock = some j)
  asleep : ∀ j, s'.asleep j → j ≠ i ∧ s.asleep j ∧
      (∀ a, s.top j = some a → Resting s.num a → Resting s'.num a) ∨
    j = i ∧ ∃ a, (new ++ st).head? = some a ∧ Resting s'.num a

/-- A step whose effects are as described keeps the invariant. -/
theorem Inv.change (h : Inv n s) (old new : Stack) (hst : s.threads[i]? = some (old ++ st))
    (hc : Inv.Change n i old new st s s') : Inv n s' where
  length := by rw [hc.threads, length_set, h.length]
  stack j st' hst' := by
    rw [hc.threads, getElem?_set] at hst'
    split_ifs at hst' with hij
    · obtain rfl := hij
      cases hst'
      exact hc.wellFormed
    · exact h.stack j st' hst'
  lock j := by
    by_cases hij : j = i
    · rw [hij, top_of_set hst hc.threads, hc.lock]
    · rw [top_of_set_ne hc.threads hij, hc.unlocked j hij, h.lock]
  queue e he := (hc.queue e he).elim (h.queue e) id
  fresh := by
    have := h.fresh
    rcases hc.move.ids with ⟨-, hfresh⟩ | ⟨-, hfresh⟩ <;> omega
  asleep j hj := by
    rcases hc.asleep j hj with ⟨hij, hasleep, hrest⟩ | ⟨rfl, hrest⟩
    · obtain ⟨a, ha, hresting⟩ := h.asleep j hasleep
      exact ⟨a, by rw [top_of_set_ne hc.threads hij, ha], hrest a ha hresting⟩
    · rw [top_of_set hst hc.threads]
      exact hrest
  counts := h.counts.move hst hc.threads hc.move

/-- The step keeps the invariant and leaves less work. -/
def Closer (n : ℕ) (s s' : State) : Prop := Inv n s' ∧ s'.work < s.work

theorem Inv.closer (h : Inv n s) (old new : Stack) (hst : s.threads[i]? = some (old ++ st))
    (hc : Inv.Change n i old new st s s') : Closer n s s' := by
  refine ⟨h.change old new hst hc, ?_⟩
  have ht : total cost s'.threads + part cost old =
      total cost s.threads + part cost new := by
    rw [hc.threads]
    exact total_set cost new hst
  have hlt := hc.work
  unfold LessWork at hlt
  unfold work
  omega

/-- The step leaves the queue, the sleepers and the waiters alone. -/
theorem Inv.closer_of_same (h : Inv n s) (hawake : s.asleep i = false) (old new : Stack)
    (hst : s.threads[i]? = some (old ++ st)) (hthreads : s'.threads = s.threads.set i (new ++ st))
    (hsame : s'.queue = s.queue ∧ s'.asleep = s.asleep ∧ s'.num = s.num) (hm : Move old new s s')
    (hlt : part cost new < part cost old) (hwf : WellFormed n i (new ++ st))
    (hlock : s'.lock = some i ↔ ∃ a, (new ++ st).head? = some a ∧ a.holds)
    (hothers : ∀ j ≠ i, (s'.lock = some j ↔ s.lock = some j)) : Closer n s s' := by
  obtain ⟨hqueue, hasleep, hnum⟩ := hsame
  exact h.closer old new hst
    { threads := hthreads
      move := hm
      work := .of_same hqueue (by rw [hthreads, length_set]) hasleep hlt
      wellFormed := hwf
      queue := fun e he => .inl (hqueue ▸ he)
      lock := hlock
      unlocked := hothers
      asleep := asleep_of_le hawake (fun j hj => hasleep ▸ hj) fun w hw => hnum ▸ hw }

section Steps

variable {w : ℕ} {todo todo' : List Task} {rounds : List (List Task)} {flush : Bool} {e : Entry}
  {max woken : ℕ}

def Activation.Done (a : Activation) : Prop := a = .leaf ∨ ∃ k todo, a = .code k todo [] .idle

theorem Inv.sleep {asleep : ℕ → Bool} (h : Inv n s)
    (hasleep : ∀ j, asleep j → s.asleep j ∨ ∃ a, s.top j = some a ∧ Resting s.num a) :
    Inv n { s with asleep } where
  length := h.length
  stack := h.stack
  lock := h.lock
  queue := h.queue
  fresh := h.fresh
  asleep j hj := (hasleep j hj).elim (h.asleep j) id
  counts := ⟨h.counts.pending, h.counts.started, h.counts.num, h.counts.owns, h.counts.fresh,
    h.counts.ids, h.counts.busy⟩

theorem perm_enqueue (e : Entry) (queue : List Entry) :
    (enqueue e queue).Perm (e :: queue) := by
  unfold enqueue
  split_ifs
  · exact .refl _
  · exact perm_append_singleton e queue

theorem count_enqueue {β : Type} [BEq β] [LawfulBEq β] [DecidableEq β] (f : Entry → β) (x : β)
    (e : Entry) (queue : List Entry) : ((enqueue e queue).map f).count x =
      (queue.map f).count x + if f e = x then 1 else 0 := by
  rw [((perm_enqueue e queue).map f).count_eq]
  by_cases hx : f e = x <;> simp [hx]

theorem queueCost_enqueue (e : Entry) (queue : List Entry) :
    queueCost (enqueue e queue) = queueCost queue + (e.task.cost + 5) := by
  rw [queueCost, ((perm_enqueue e queue).map _).sum_eq, map_cons, sum_cons, queueCost]
  omega

theorem notifyOne_eq (hs' : s.notifyOne woken = some s') : ∃ asleep, s' = { s with asleep } ∧
    (∀ j, asleep j → s.asleep j) ∧ ∀ j, asleep j = false → s.asleep j = false ∨ j = woken := by
  unfold notifyOne at hs'
  split_ifs at hs'
  · cases hs'
    refine ⟨_, rfl, fun j hj => by simp_all, fun j hj => ?_⟩
    simpa only [Bool.and_eq_false_iff, bne_eq_false_iff_eq] using hj
  · cases hs'
    exact ⟨_, rfl, fun j hj => hj, fun j hj => .inl hj⟩

theorem asleep_dec (hst : s.threads[i]? = some (.run flush (.dec e) :: st)) (j : ℕ) :
    (s.dec i flush e st).asleep j =
      (s.asleep j && !(s.num e.wo = 1 && (j != i && s.awaits j e.wo))) := by
  have hthreads : (s.decNum i flush e st).threads = s.threads.set i (.run flush .relock :: st) :=
    rfl
  have hself : (s.decNum i flush e st).top i = some (.run flush .relock) := by
    rw [top_of_set hst hthreads, head?_cons]
  have hothers : j ≠ i → (s.decNum i flush e st).top j = s.top j := fun hij =>
    top_of_set_ne hthreads hij
  have hnum : (s.decNum i flush e st).num e.wo = 0 ↔ s.num e.wo = 1 := by
    simp
    omega
  have hasleep : (s.decNum i flush e st).asleep = s.asleep := rfl
  unfold dec
  simp only [hnum]
  split_ifs with hone
  · by_cases hij : j = i
    · simp [notifyAll, awaits, hij, hself, hasleep, -decNum]
    · have hbne : (j != i) = true := by simpa using hij
      simp [notifyAll, awaits, hbne, hothers hij, hasleep, hone, -decNum]
  · simp [hone]

theorem dec_eq : ∃ asleep, s.dec i flush e st = { s.decNum i flush e st with asleep } := by
  unfold dec
  simp only
  split_ifs
  · exact ⟨_, rfl⟩
  · exact ⟨s.asleep, rfl⟩

/-- At most one thread waits for a waiter. -/
theorem Inv.awaits_unique {j k : ℕ} (h : Inv n s) (hj : s.awaits j w) (hk : s.awaits k w) :
    j = k := by
  have htop : ∀ {j}, s.awaits j w → ∃ todo rounds st,
      s.threads[j]? = some (.code w todo rounds .test :: st) := by
    intro j hj
    simp only [awaits, Bool.and_eq_true] at hj
    obtain ⟨-, hj⟩ := hj
    split at hj
    · next w' todo rounds htop =>
      obtain ⟨st, hst, hhead⟩ := Option.bind_eq_some_iff.mp htop
      obtain rfl : w' = w := by simpa using hj
      obtain ⟨st', rfl⟩ : ∃ st', st = .code w' todo rounds .test :: st' := by
        cases st <;> simp_all
      exact ⟨todo, rounds, st', hst⟩
    · cases hj
  obtain ⟨todo, rounds, st, hst⟩ := htop hj
  obtain ⟨todo', rounds', st', hst'⟩ := htop hk
  by_contra hne
  have hle := add_le_total_of_ne (g := owns w) hst mem_cons_self hst'
    mem_cons_self hne
  have hone := h.counts.owns w
  simp at hle
  omega

variable (h : Inv n s) (hawake : s.asleep i = false)

include h hawake

theorem Inv.awaitWork (hst : s.threads[i]? = some (.run false .head :: st)) :
    Closer n s (s.awaitWork i false st) := by
  have hlock : s.lock = some i := (h.lock_iff hst).mpr rfl
  refine h.closer [.run false .head] [.run false .lock] hst
    { threads := rfl
      move := .quiet (by simp) (by simp)
      work := ?_
      wellFormed := ⟨by simp, trivial, (h.below hst).run⟩
      queue := fun _ => .inl
      lock := by simp [State.awaitWork]
      unlocked := fun j hj => by simp [State.awaitWork, hlock, hj.symm]
      asleep := fun j hj => ?_ }
  · have hlt : (s.awaitWork i false st).awake + 1 ≤ s.awake :=
      awake_lt (length_set ..) (List.getElem?_eq_some_iff.mp hst).1 hawake rfl
    have hqueue : (s.awaitWork i false st).queue = s.queue := rfl
    simp only [LessWork, part_cons, cost, hqueue]
    omega
  · by_cases hij : j = i
    · exact .inr ⟨hij, _, rfl, .inl rfl⟩
    · exact .inl ⟨hij, by simpa [State.awaitWork, hij] using hj, fun _ _ hrest => hrest⟩

theorem Inv.ret_caller {caller caller' : Activation} {x : ℕ × ℕ} (ha : a.Done)
    (hst : s.threads[i]? = some (a :: caller :: st))
    (hcaller : (∃ flush e, caller = .run flush (.call e) ∧ caller' = .run flush (.dec e) ∧
        x = e.mark) ∨
      ∃ w todo rounds id, caller = .code w todo rounds (.inPlace id) ∧
        caller' = .code w todo rounds .next ∧ x = (id, w)) :
    Closer n s { s.setStack i (caller' :: st) with finished := x :: s.finished } := by
  obtain ⟨-, -, hbelow⟩ := h.below hst
  have hlock := h.lock_iff hst
  refine h.closer_of_same hawake [a, caller] [caller'] hst rfl ⟨rfl, rfl, rfl⟩ ?_ ?_ ?_ ?_
    fun _ _ => .rfl
  all_goals
    rcases hcaller with ⟨flush, e, rfl, rfl, rfl⟩ | ⟨w, todo, rounds, id, rfl, rfl, rfl⟩ <;>
      rcases ha with rfl | ⟨k, todo', rfl⟩
  iterate 4
    · refine ⟨fun x => ?_, fun x => ?_, fun w => ?_, fun w => ?_, .inl ⟨rfl, rfl⟩, fun e he =>
        .inl ⟨he, by simp⟩⟩
      · simp [count_cons]
        omega
      all_goals simp
  iterate 4
    · simp
  · exact ⟨by simp, trivial, hbelow.run⟩
  · exact ⟨by simp, trivial, hbelow.run⟩
  · exact ⟨by simp, trivial, hbelow.code⟩
  · exact ⟨by simp, trivial, hbelow.code⟩
  all_goals simpa using hlock

theorem Inv.ret_nil (ha : a.Done) (hst : s.threads[i]? = some [a]) : Closer n s (s.ret i []) := by
  have hlock := h.lock_iff hst
  rcases ha with rfl | ⟨k, todo, rfl⟩
  all_goals
    exact h.closer_of_same hawake [_] [] hst rfl ⟨rfl, rfl, rfl⟩ (.quiet (by simp) (by simp))
      (by simp) trivial (by simpa [ret] using hlock) fun _ _ => .rfl

/-- A function returns to its caller. -/
theorem Inv.ret (ha : a.Done) (hst : s.threads[i]? = some (a :: st)) :
    Closer n s (s.ret i st) := by
  rcases st with _ | ⟨caller, st⟩
  · exact h.ret_nil hawake ha hst
  · have hcaller : (∃ flush e, caller = .run flush (.call e)) ∨
        ∃ w todo rounds id, caller = .code w todo rounds (.inPlace id) := by
      rcases ha with rfl | ⟨k, todo, rfl⟩
      · obtain ⟨flush, e, rfl, -⟩ := (h.below hst).1
        exact .inl ⟨flush, e, rfl⟩
      · rcases (h.below hst).1.2 with ⟨flush, e, rfl, -⟩ | ⟨w, todo', rounds, rfl⟩
        · exact .inl ⟨flush, e, rfl⟩
        · exact .inr ⟨w, todo', rounds, k, rfl⟩
    rcases hcaller with ⟨flush, e, rfl⟩ | ⟨w, todo, rounds, id, rfl⟩
    · exact h.ret_caller hawake ha hst (.inl ⟨flush, e, rfl, rfl, rfl⟩)
    · exact h.ret_caller hawake ha hst (.inr ⟨w, todo, rounds, id, rfl, rfl, rfl⟩)

theorem Inv.setCode {rounds' : List (List Task)} {pt pt' : CodePoint}
    (hst : s.threads[i]? = some (.code w todo rounds pt :: st))
    (hpt : pt = .idle ∧ pt' = .next ∧ rounds = todo' :: rounds' ∨
      pt = .test ∧ pt' = .idle ∧ rounds' = rounds) :
    Closer n s (s.setStack i (.code w todo' rounds' pt' :: st)) := by
  have hlock := h.lock_iff hst
  refine h.closer_of_same hawake [.code w todo rounds pt] [.code w todo' rounds' pt'] hst rfl
    ⟨rfl, rfl, rfl⟩ ?_ ?_ ⟨?_, ?_, (h.below hst).code⟩ ?_ fun _ _ => .rfl
  all_goals rcases hpt with ⟨rfl, rfl, rfl⟩ | ⟨rfl, rfl, rfl⟩
  · exact .quiet (by simp) (by simp)
  · exact .quiet (by simp) (by simp)
  iterate 4
    · simp
  · exact trivial
  · exact trivial
  all_goals simpa using hlock

/-- `wait` starts by helping with the queue. -/
theorem Inv.wait (hst : s.threads[i]? = some (.code w [] rounds .next :: st)) :
    Closer n s (s.setStack i (.run true .lock :: .code w [] rounds .flush :: st)) := by
  have hlock := h.lock_iff hst
  exact h.closer_of_same hawake [.code w [] rounds .next]
    [.run true .lock, .code w [] rounds .flush] hst rfl ⟨rfl, rfl, rfl⟩
    (.quiet (by simp) (by simp)) (by simp; omega)
    ⟨by simp, trivial, ⟨rfl, w, rounds, rfl⟩, rfl, (h.below hst).code⟩
    (by simpa using hlock) fun _ _ => .rfl

theorem Inv.takeLock {pt : RunPoint} {active : ℕ} (hst : s.threads[i]? = some (.run flush pt :: st))
    (hpt : pt = .lock ∨ pt = .relock) (hfree : s.lock = none) :
    Closer n s { s.setStack i (.run flush .head :: st) with lock := some i, active } := by
  have hbelow := h.below hst
  rcases hpt with rfl | rfl
  all_goals
    exact h.closer_of_same hawake [_] [.run flush .head] hst rfl ⟨rfl, rfl, rfl⟩
      (.quiet (by simp) (by simp)) (by simp) ⟨by simp, trivial, hbelow.run⟩ (by simp)
      fun j hj => by simp [hfree, hj.symm]

/-- `submit` queues a task, or runs it in place. -/
theorem Inv.submit {t : Task} (hst : s.threads[i]? = some (.code w (t :: todo) rounds .next :: st))
    (hs' : s.submit max i w t todo rounds st = some s') : Closer n s s' := by
  have hbelow := h.below hst
  unfold State.submit at hs'
  simp only at hs'
  split_ifs at hs' with hfree hplace
  all_goals
    rw [Bool.not_eq_true, Option.isSome_eq_false_iff, Option.isNone_iff_eq_none] at hfree
    cases hs'
  · -- in place
    obtain ⟨tasks, rfl⟩ : ∃ tasks, t = .node tasks := by
      cases t with
      | leaf => simp [Task.isLeaf] at hplace
      | node tasks => exact ⟨tasks, rfl⟩
    refine h.closer_of_same hawake [.code w (.node tasks :: todo) rounds .next]
      [.code s.fresh [] tasks .idle, .code w todo rounds (.inPlace s.fresh)] hst rfl
      ⟨rfl, rfl, rfl⟩ ?_ (by simp [Task.cost]; omega)
      ⟨by simp, trivial, ⟨h.fresh, .inr ⟨w, todo, rounds, rfl⟩⟩, trivial, hbelow.code⟩
      (by simp [hfree]) fun _ _ => .rfl
    refine ⟨fun x => ?_, fun x => ?_, fun w => ?_, fun w => ?_, .inr ⟨⟨w, rfl⟩, rfl⟩, fun e he =>
      .inl ⟨he, by simp⟩⟩
    · simp [count_cons, Entry.mark]
      omega
    · simp [count_cons]
      omega
    · simp
    · simp [eq_comm]
      omega
  · -- queued
    have hok : Entry.Ok n ⟨s.fresh, w, t⟩ := by
      refine ⟨h.fresh, fun hw => ?_⟩
      have hlt : i < n := h.length ▸ (List.getElem?_eq_some_iff.mp hst).1
      have hdepth := hbelow.depth_pos hlt hw
      by_contra hleaf
      simp [hleaf, hdepth] at hplace
    have hnonneg : 0 ≤ s.num w := by
      rw [h.counts.num]
      exact Int.natCast_nonneg _
    refine h.closer [.code w (t :: todo) rounds .next]
      [.code w todo rounds (.pushing ⟨s.fresh, w, t⟩)] hst
      { threads := rfl
        move := ?_
        work := .of_same rfl (length_set ..) rfl (by simp; omega)
        wellFormed := ⟨by simp, ⟨rfl, hok⟩, hbelow.code⟩
        queue := fun _ => .inl
        lock := by simp
        unlocked := fun j hj => by simp [hfree, hj.symm]
        asleep := asleep_of_le hawake (fun _ => id) fun w' hw' => ?_ }
    · refine ⟨fun x => ?_, fun x => ?_, fun w' => ?_, fun w' => ?_, .inr ⟨⟨w, rfl⟩, rfl⟩,
        fun e he => .inl ⟨he, by simp⟩⟩
      · by_cases hx : (s.fresh, w) = x <;> simp [Entry.mark, hx]
        omega
      · by_cases hx : (s.fresh, w) = x <;> simp [Entry.mark, hx]
        omega
      · by_cases hw : w' = w
        · simp [hw]
          omega
        · simp [hw, Ne.symm hw]
      · simp [eq_comm]
        omega
    · by_cases hw : w' = w
      · subst hw
        simp
        omega
      · simpa [hw] using hw'

/-- A task is put on the queue, and a thread is woken. -/
theorem Inv.push (hst : s.threads[i]? = some (.code w todo rounds (.pushing e) :: st))
    (hs' : (s.push i e w todo rounds st).notifyOne woken = some s') : Closer n s s' := by
  obtain ⟨-, ⟨hwo, hok⟩, hbelow⟩ := h.wellFormed hst
  have hlock : s.lock = some i := (h.lock_iff hst).mpr rfl
  have hmem : ∀ e', e' ∈ enqueue e s.queue → e' ∈ s.queue ∨ e' = e := fun e' he' =>
    (mem_cons.mp ((perm_enqueue e s.queue).subset he')).symm
  obtain ⟨asleep, rfl, hle, hwoken⟩ := notifyOne_eq hs'
  refine h.closer [.code w todo rounds (.pushing e)] [.code w todo rounds .next] hst
    { threads := rfl
      move := ?_
      work := ?_
      wellFormed := ⟨by simp, trivial, hbelow.code⟩
      queue := fun e' he' => (hmem e' he').imp_right fun heq : e' = e => heq ▸ hok
      lock := by simp
      unlocked := fun j hj => by simp [hlock, hj.symm]
      asleep := asleep_of_le hawake hle fun _ h => h }
  · refine ⟨fun x => ?_, fun x => ?_, fun w => ?_, fun w => ?_, .inl ⟨rfl, rfl⟩, fun e' he' => ?_⟩
    · simp [count_enqueue]
    · simp [count_enqueue]
    · simp [count_enqueue]
    · simp [count_enqueue]
      omega
    · rcases hmem e' he' with hold | rfl
      · exact .inl ⟨hold, by simp⟩
      · exact .inr (by simp [hwo])
  · refine .of_woken (length_set ..) hwoken ?_
    simp only [push, queueCost_enqueue]
    simp
    omega

theorem Inv.callTask {queue : List Entry} (hst : s.threads[i]? = some (.run flush .head :: st))
    (hqueue : s.queue = e :: queue) : Closer n s (s.callTask i flush e queue st) := by
  have hbelow := h.below hst
  have hlock : s.lock = some i := (h.lock_iff hst).mpr rfl
  have hok : e.Ok n := h.queue e (by simp [hqueue])
  refine h.closer [.run flush .head] [e.task.start e.id, .run flush (.call e)] hst
    { threads := rfl
      move := ?_
      work := ?work
      wellFormed := ?_
      queue := fun e he => .inl (by rw [hqueue]; exact mem_cons_of_mem _ he)
      lock := ?_
      unlocked := fun j hj => by simp [hlock, hj.symm]
      asleep := asleep_of_le hawake (fun _ => id) fun _ => id }
  case work =>
    have hsame : (s.callTask i flush e queue st).awake = s.awake :=
      awake_of_same (length_set ..) rfl
    rw [LessWork, hsame, hqueue, part_cons, cost_start]
    simp [queueCost]
  all_goals rcases htask : e.task with _ | tasks
  all_goals simp only [Task.start]
  iterate 2
    · refine ⟨fun x => ?_, fun x => ?_, fun w => ?_, fun w => ?_, .inl ⟨rfl, rfl⟩, fun e' he' =>
        .inl ⟨by rw [hqueue]; exact mem_cons_of_mem _ he', by simp⟩⟩
      · by_cases hx : e.mark = x <;> simp [hqueue, hx]
      · by_cases hx : e.mark = x <;> simp [hqueue, hx]
        omega
      · by_cases hw : e.wo = w <;> simp [hqueue, hw]
      · by_cases hw : e.id = w <;> simp [hqueue, hw] <;> omega
  · exact ⟨by simp, trivial, ⟨flush, e, rfl, by simp [htask, Task.isLeaf]⟩, hok, hbelow.run⟩
  · exact ⟨by simp, trivial, ⟨hok.1, .inl ⟨flush, e, rfl, by simp [htask, Task.isLeaf]⟩⟩, hok,
      hbelow.run⟩
  · simp
  · simp

theorem Inv.flushed
    (hst : s.threads[i]? = some (.run true .head :: .code w todo rounds .flush :: st))
    (hqueue : s.queue = []) : Closer n s (s.flushed i (.code w todo rounds .flush :: st)) := by
  obtain ⟨-, hok, hbelow⟩ := h.below hst
  have hlock : s.lock = some i := (h.lock_iff hst).mpr rfl
  exact h.closer_of_same hawake [.run true .head, .code w todo rounds .flush]
    [.code w todo rounds .test] hst rfl ⟨rfl, rfl, rfl⟩ (.quiet (by simp) (.inl hqueue)) (by simp)
    ⟨by simp, hok, hbelow.code⟩ (by simp [State.flushed])
    fun j hj => by simp [State.flushed, hlock, hj.symm]

theorem Inv.loopHead (hst : s.threads[i]? = some (.run flush .head :: st)) :
    Closer n s (s.loopHead i flush st) := by
  have hbelow := h.below hst
  unfold State.loopHead
  split
  · next e queue hqueue => exact h.callTask hawake hst hqueue
  · next hqueue =>
    cases flush with
    | false => exact h.awaitWork hawake hst
    | true =>
      rcases st with _ | ⟨caller, st⟩
      · cases hbelow
      · obtain ⟨-, w, rounds, rfl⟩ := hbelow.1
        exact h.flushed hawake hst hqueue

/-- `waiter::dec` after a task. -/
theorem Inv.dec (hst : s.threads[i]? = some (.run flush (.dec e) :: st)) :
    Closer n s (s.dec i flush e st) := by
  have hlock := h.lock_iff hst
  have hasleep := fun j => asleep_dec hst j
  obtain ⟨asleep, heq⟩ := dec_eq (s := s) (i := i) (e := e)
  rw [heq] at hasleep ⊢
  refine h.closer [.run flush (.dec e)] [.run flush .relock] hst
    { threads := rfl
      move := ?_
      work := ?_
      wellFormed := ⟨by simp, trivial, (h.below hst).run⟩
      queue := fun _ => .inl
      lock := by simpa using hlock
      asleep := fun j hj => ?_
      unlocked := fun _ _ => .rfl }
  · refine ⟨fun x => ?_, fun x => ?_, fun w => ?_, fun w => ?_, .inl ⟨rfl, rfl⟩, fun e' he' =>
      .inl ⟨he', by simp⟩⟩
    · simp
    · simp
    · by_cases hw : w = e.wo
      · simp [hw]
      · simp [hw, Ne.symm hw]
    · simp
  · -- at most one thread waits for the waiter
    have hwoken : ∃ k, ∀ j, asleep j = false → s.asleep j = false ∨ j = k := by
      by_cases hex : ∃ k, s.awaits k e.wo
      · obtain ⟨k, hk⟩ := hex
        refine ⟨k, fun j hj => ?_⟩
        by_cases hawaits : s.awaits j e.wo
        · exact .inr (h.awaits_unique hawaits hk)
        · exact .inl (by simpa [hawaits, hj] using hasleep j)
      · refine ⟨0, fun j hj => .inl ?_⟩
        have hnot : ¬s.awaits j e.wo := fun hawaits => hex ⟨j, hawaits⟩
        simpa [hnot, hj] using hasleep j
    obtain ⟨k, hk⟩ := hwoken
    refine .of_woken (length_set ..) hk ?_
    simp
    omega
  · rw [hasleep] at hj
    simp only [Bool.and_eq_true] at hj
    obtain ⟨hj, hnotified⟩ := hj
    have hij : j ≠ i := by
      rintro rfl
      simp [hawake] at hj
    refine .inl ⟨hij, hj, fun a htop hrest => ?_⟩
    rcases hrest with rfl | ⟨w, rounds, rfl, hw⟩
    · exact .inl rfl
    · refine .inr ⟨w, rounds, rfl, ?_⟩
      by_cases hwo : w = e.wo
      · -- the last task of the waiter wakes those that wait for it
        subst hwo
        have hawaits : s.awaits j e.wo = true := by simp [awaits, htop, hj]
        have hne : s.num e.wo ≠ 1 := by simpa [hawaits, hij] using hnotified
        simp
        omega
      · simpa [hwo] using hw

/-- Whatever the top of a stack is at, its step keeps the invariant and leaves less work. -/
theorem Inv.stepTop (hst : s.threads[i]? = some (a :: st))
    (hs' : s.stepTop max i woken a st = some s') : Closer n s s' := by
  unfold State.stepTop at hs'
  split at hs'
  · cases hs'
    exact h.ret hawake (.inl rfl) hst
  · cases hs'
    exact h.ret hawake (.inr ⟨_, _, rfl⟩) hst
  · cases hs'
    exact h.setCode hawake hst (.inl ⟨rfl, rfl, rfl⟩)
  · exact h.submit hawake hst hs'
  · cases hs'
    exact h.wait hawake hst
  · exact h.push hawake hst hs'
  · next w todo rounds =>
    split_ifs at hs' with hzero
    · cases hs'
      exact h.setCode hawake hst (.inr ⟨rfl, rfl, rfl⟩)
    · cases hs'
      obtain rfl : todo = [] := (h.wellFormed hst).2.1
      refine ⟨h.sleep fun j hj => ?_, ?_⟩
      · by_cases hij : j = i
        · exact .inr ⟨_, hij ▸ top_eq hst, .inr ⟨w, rounds, rfl, hzero⟩⟩
        · exact .inl (by simpa [hij] using hj)
      · have hlt : awake { s with asleep := Function.update s.asleep i true } + 1 ≤ s.awake :=
          awake_lt rfl (List.getElem?_eq_some_iff.mp hst).1 hawake rfl
        unfold work
        simp only
        omega
  · split_ifs at hs' with hfree
    cases hs'
    exact h.takeLock hawake hst (.inl rfl) (by simpa using hfree)
  · cases hs'
    exact h.loopHead hawake hst
  · cases hs'
    exact h.dec hawake hst
  · split_ifs at hs' with hfree
    cases hs'
    exact h.takeLock hawake hst (.inr rfl) (by simpa using hfree)
  all_goals cases hs'

end Steps

theorem State.go_eq_some (hs' : s.go max i woken = some s') :
    s.asleep i = false ∧ ∃ a st, s.threads[i]? = some (a :: st) ∧
      s.stepTop max i woken a st = some s' := by
  unfold go at hs'
  split_ifs at hs' with hasleep
  split at hs'
  · next a st hst => exact ⟨by simpa using hasleep, a, st, hst, hs'⟩
  · cases hs'

theorem Inv.go (h : Inv n s) (hs' : s.go max i woken = some s') : Closer n s s' := by
  obtain ⟨hawake, a, st, hst, hs'⟩ := go_eq_some hs'
  exact h.stepTop hawake hst hs'

theorem Inv.spurious (h : Inv n s) (hs' : s.step max (.spurious i) = some s') :
    Inv n s' ∧ s'.work ≤ s.work + 2 := by
  simp only [step] at hs'
  split_ifs at hs'
  cases hs'
  refine ⟨h.sleep fun j hj => .inl ?_, work_le_of_woken (k := i) fun j hj => ?_⟩
  · by_cases hij : j = i
    · simp [hij] at hj
    · simpa [hij] using hj
  · by_cases hij : j = i
    · exact .inr hij
    · exact .inl (by simpa [hij] using hj)

/-- Every action keeps the invariant. -/
theorem Inv.step {action : Action} (h : Inv n s) (hs' : s.step max action = some s') :
    Inv n s' := by
  cases action with
  | go i woken => exact (h.go hs').1
  | spurious i => exact (h.spurious hs').1

section Init

variable (callers : List (List (List Task))) (max : ℕ)

theorem total_init_of_zero {g : Activation → ℕ}
    (hcode : ∀ w rounds, g (.code w [] rounds .idle) = 0)
    (hrun : g (.run false .lock) = 0) : total g (init callers max).threads = 0 := by
  rw [total_eq_flatten, sum_eq_zero]
  intro x hx
  obtain ⟨a, ha, rfl⟩ := mem_map.mp hx
  simp only [init, flatten_append, mem_append, mem_flatten, mem_mapIdx,
    mem_replicate] at ha
  rcases ha with ⟨st, ⟨i, hi, rfl⟩, ha⟩ | ⟨st, ⟨-, rfl⟩, ha⟩
  · rw [mem_singleton.mp ha, hcode]
  · rw [mem_singleton.mp ha, hrun]

theorem total_owns_callers (w : ℕ) : ∀ (callers : List (List (List Task))) (k : ℕ),
    total (owns w)
      ((callers.zipIdx k).map fun x => [Activation.code x.2 [] x.1 .idle]) =
        if k ≤ w ∧ w < k + callers.length then 1 else 0
  | [], k => by simp [total]
  | rounds :: callers, k => by
    have ih := total_owns_callers w callers (k + 1)
    simp only [total, zipIdx_cons, map_cons, sum_cons] at ih ⊢
    rw [ih]
    simp only [owns, map_nil, sum_nil, length_cons]
    split_ifs <;> omega

theorem total_owns_init (w : ℕ) : total (owns w) (init callers max).threads =
    if w < callers.length then 1 else 0 := by
  have hworkers : total (owns w) (replicate (max - 1) [.run false .lock]) = 0 := by
    simp [total]
  have hcallers := total_owns_callers w callers 0
  simp only [init, mapIdx_eq_zipIdx_map]
  rw [total, map_append, sum_append]
  rw [total] at hworkers hcallers
  rw [hcallers]
  simp

/-- The invariant holds at the start. -/
theorem inv_init : Inv (callers.length + (max - 1)) (init callers max) where
  length := by simp [init]
  stack i st hst := by
    simp only [init, getElem?_append] at hst
    split_ifs at hst with hi
    · simp only [getElem?_mapIdx, Option.map_eq_some_iff] at hst
      obtain ⟨rounds, -, rfl⟩ := hst
      exact ⟨by simp, trivial, rfl⟩
    · obtain ⟨-, rfl⟩ := mem_replicate.mp (mem_of_getElem? hst)
      exact ⟨by simp, trivial, rfl⟩
  lock i := by
    refine iff_of_false (by simp [init]) ?_
    rintro ⟨a, ha, hholds⟩
    obtain ⟨st, hst, hhead⟩ := Option.bind_eq_some_iff.mp ha
    have hzero : a.holds = false := by
      have hmem := mem_of_getElem? hst
      simp only [init, mem_append, mem_mapIdx, mem_replicate] at hmem
      rcases hmem with ⟨i, hi, rfl⟩ | ⟨-, rfl⟩
      all_goals
        simp only [head?_cons, Option.some.injEq] at hhead
        rw [← hhead]
        rfl
    rw [hzero] at hholds
    cases hholds
  queue e he := by simp [init] at he
  fresh := le_rfl
  asleep i hi := by simp [init] at hi
  counts := by
    refine ⟨fun x => ?_, fun x => ?_, fun w => ?_, fun w => ?_, fun w hw => ?_, ?_, fun e he => ?_⟩
    · rw [total_init_of_zero _ _ (by simp) (by simp), total_init_of_zero _ _ (by simp) (by simp)]
      rfl
    · rw [total_init_of_zero _ _ (by simp) (by simp)]
      rfl
    · rw [total_init_of_zero _ _ (by simp) (by simp)]
      rfl
    · rw [total_owns_init]
      simp only [init, map_nil, count_nil]
      split_ifs <;> omega
    · rw [total_owns_init]
      have : callers.length + (max - 1) ≤ w := hw
      simp only [init]
      rw [if_neg (by omega)]
      simp
    · exact nodup_nil
    · simp [init] at he

end Init


section Progress

variable (max : ℕ) {w : ℕ}

/-- The thread cannot go on. -/
def Blocked (s : State) (i : ℕ) : Prop := ∀ woken, s.go max i woken = none

variable {max}

theorem exists_notifyOne (s : State) : ∃ woken s', s.notifyOne woken = some s' := by
  unfold notifyOne
  by_cases hany : (range s.threads.length).any s.awaitsWork
  · obtain ⟨woken, -, hwoken⟩ := any_eq_true.mp hany
    exact ⟨woken, _, by rw [if_pos hwoken]⟩
  · by_cases hzero : s.awaitsWork 0
    · exact ⟨0, _, by rw [if_pos hzero]⟩
    · exact ⟨0, s, by rw [if_neg hzero, if_neg hany]⟩

theorem go_of_awake (hawake : s.asleep i = false) (hst : s.threads[i]? = some (a :: st))
    (woken : ℕ) : s.go max i woken = s.stepTop max i woken a st := by
  simp [go, hawake, hst]

variable (h : Inv n s) {b : Activation} {rounds : List (List Task)}

include h

theorem Inv.mem_wellFormed (hst : s.threads[i]? = some (a :: st)) (hb : b ∈ a :: st) :
    b = a ∨ b ∈ st ∧ b.suspended := by
  rcases mem_cons.mp hb with hb | hb
  · exact .inl hb
  · exact .inr ⟨hb, (h.wellFormed hst).2.2.suspended hb⟩

theorem Inv.not_queued_of_test {todo : List Task}
    (hst : s.threads[i]? = some (.code w todo rounds .test :: st)) :
    (s.queue.map Entry.wo).count w = 0 := by
  refine count_eq_zero.mpr fun hw => ?_
  obtain ⟨e, he, rfl⟩ := mem_map.mp hw
  obtain ⟨j, st', b, hst', hb, hbusy⟩ := exists_of_total_pos (h.counts.busy e he)
  have hne : .code e.wo todo rounds .test ≠ b := by
    rintro rfl
    simp at hbusy
  have hle := add_le_total (g := owns e.wo) hst (by simp) hst' hb hne
  have hone := h.counts.owns e.wo
  have howns : 1 ≤ b.owns e.wo := by
    cases b with
    | code w' todo' rounds' pt => cases pt <;> simp at hbusy ⊢ <;> omega
    | _ => simp at hbusy
  have hself : (Activation.code e.wo todo rounds .test).owns e.wo = 1 := by simp
  omega

variable (hblocked : ∀ i, Blocked max s i)

include hblocked

/-- Where all threads are blocked, nobody holds the lock. -/
theorem Inv.lock_of_blocked : s.lock = none := by
  by_contra hlock
  obtain ⟨i, hi⟩ := Option.ne_none_iff_exists'.mp hlock
  obtain ⟨a, htop, hholds⟩ := (h.lock i).mp hi
  obtain ⟨st, hst, hhead⟩ := Option.bind_eq_some_iff.mp htop
  obtain ⟨st, rfl⟩ : ∃ st', st = a :: st' := by
    cases st <;> simp_all
  have hawake : s.asleep i = false := by
    by_contra hasleep
    obtain ⟨b, hb, hrest⟩ := h.asleep i (by simpa using hasleep)
    obtain rfl : a = b := by simpa [htop] using hb
    rcases hrest with rfl | ⟨w, rounds, rfl, -⟩ <;> cases hholds
  have hstep := fun woken => (go_of_awake hawake hst woken).symm.trans (hblocked i woken)
  cases a with
  | leaf => cases hholds
  | code w todo rounds pt =>
    cases pt with
    | pushing e =>
      obtain ⟨woken, s', hs'⟩ := exists_notifyOne (s.push i e w todo rounds st)
      have := hstep woken
      simp [State.stepTop, hs', -State.push] at this
    | _ => cases hholds
  | run flush pt =>
    cases pt with
    | head => simpa [State.stepTop] using hstep 0
    | _ => cases hholds

theorem Inv.asleep_of_blocked (hst : s.threads[i]? = some (a :: st)) : s.asleep i = true := by
  have hfree := h.lock_of_blocked hblocked
  by_contra hasleep
  have hawake : s.asleep i = false := by simpa using hasleep
  have hstep := (go_of_awake hawake hst 0).symm.trans (hblocked i 0)
  obtain ⟨hsusp, -⟩ := h.wellFormed hst
  have hlock := h.lock_iff hst
  rw [hfree] at hlock
  cases a with
  | leaf => simp [State.stepTop] at hstep
  | code w todo rounds pt =>
    cases pt with
    | idle => cases rounds <;> simp [State.stepTop] at hstep
    | next =>
      cases todo with
      | nil => simp [State.stepTop] at hstep
      | cons t todo =>
        simp only [State.stepTop, State.submit] at hstep
        split_ifs at hstep
        simp_all
    | pushing e => simp at hlock
    | inPlace id => simp at hsusp
    | flush => simp at hsusp
    | test =>
      simp only [State.stepTop] at hstep
      split_ifs at hstep
  | run flush pt =>
    cases pt with
    | lock => simp [State.stepTop, hfree] at hstep
    | head => simp at hlock
    | call e => simp at hsusp
    | dec e => simp [State.stepTop] at hstep
    | relock => simp [State.stepTop, hfree] at hstep

theorem Inv.resting_of_blocked (hst : s.threads[i]? = some (a :: st)) : Resting s.num a := by
  obtain ⟨b, hb, hrest⟩ := h.asleep i (h.asleep_of_blocked hblocked hst)
  rw [top_eq hst] at hb
  cases hb
  exact hrest

/-- Where all threads are blocked, what a stack owes to a waiter is under a `run` that has called a
task, one that is not a leaf. -/
theorem Inv.owed_of_blocked (hst : s.threads[i]? = some st) (hb : b ∈ st) (howed : 0 < b.owed w) :
    ∃ flush e, b = .run flush (.call e) ∧ e.wo = w ∧ ¬e.task.isLeaf ∧ e.Ok n := by
  rcases st with _ | ⟨a, st⟩
  · cases hb
  obtain ⟨-, -, hbelow⟩ := h.wellFormed hst
  have hrest := h.resting_of_blocked hblocked hst
  rcases h.mem_wellFormed hst hb with rfl | ⟨hmem, hsusp⟩
  · rcases hrest with rfl | ⟨w', rounds, rfl, -⟩ <;> simp at howed
  · cases b with
    | leaf => simp at howed
    | code w' todo rounds pt => cases pt <;> simp at howed hsusp
    | run flush pt =>
      cases pt with
      | call e =>
        have hwo : e.wo = w := by
          by_contra hne
          simp [hne] at howed
        refine ⟨flush, e, rfl, hwo, fun hleaf => ?_, hbelow.ok hmem⟩
        obtain rfl := hbelow.leaf_of_call hleaf hmem
        rcases hrest with heq | ⟨w', rounds, heq, -⟩ <;> cases heq
      | _ => simp at howed hsusp

/-- Where all threads are blocked the code of a nested task does not sleep: the tasks it waits for
are leaf tasks, and these run. -/
theorem Inv.lt_of_blocked (hst : s.threads[i]? = some (.code w [] rounds .test :: st)) : w < n := by
  by_contra hw
  obtain heq | ⟨w', rounds', heq, hnum⟩ := h.resting_of_blocked hblocked hst
  · cases heq
  cases heq
  rw [h.counts.num, h.not_queued_of_test hst] at hnum
  obtain ⟨j, st', b, hst', hb, howed⟩ := exists_of_total_pos
    (Nat.pos_of_ne_zero fun hzero => hnum (by rw [hzero]; rfl))
  obtain ⟨flush, e, -, hwo, hleaf, hok⟩ := h.owed_of_blocked hblocked hst' hb howed
  exact hleaf (hok.2 (by omega))

theorem Inv.singleton_of_blocked (hst : s.threads[i]? = some (a :: st)) : st = [] := by
  obtain ⟨-, -, hbelow⟩ := h.wellFormed hst
  rcases st with _ | ⟨caller, st⟩
  · rfl
  · rcases h.resting_of_blocked hblocked hst with rfl | ⟨w, rounds, rfl, -⟩
    · cases hbelow.1.1
    · have := h.lt_of_blocked hblocked hst
      have := hbelow.1.1
      omega

theorem Inv.total_of_blocked {g : Activation → ℕ} (hrun : g (.run false .lock) = 0)
    (hcode : ∀ w rounds, g (.code w [] rounds .test) = 0) : total g s.threads = 0 := by
  by_contra hpos
  obtain ⟨i, st, b, hst, hb, hg⟩ := exists_of_total_pos (Nat.pos_of_ne_zero hpos)
  rcases st with _ | ⟨a, st⟩
  · cases hb
  obtain rfl := h.singleton_of_blocked hblocked hst
  obtain rfl := mem_singleton.mp hb
  rcases h.resting_of_blocked hblocked hst with rfl | ⟨w, rounds, rfl, -⟩
  · omega
  · have := hcode w rounds
    omega

/-- Where all threads are blocked, the queue is empty. -/
theorem Inv.queue_of_blocked : s.queue = [] := by
  refine eq_nil_iff_forall_not_mem.mpr fun e he => ?_
  have hbusy := h.counts.busy e he
  rw [h.total_of_blocked hblocked (by simp) (by simp)] at hbusy
  omega

/-- Where all threads are blocked, everything that was submitted has run. -/
theorem Inv.done_of_blocked :
    (∀ x, s.started.count x = s.submitted.count x) ∧
    (∀ x, s.finished.count x = s.submitted.count x) ∧
    ∀ (i : ℕ) (st : Stack), s.threads[i]? = some st → st = [] ∨ st = [.run false .lock] := by
  have hqueue := h.queue_of_blocked hblocked
  refine ⟨fun x => ?_, fun x => ?_, fun i st hst => ?_⟩
  · have hstarted := h.counts.started x
    rw [hqueue, h.total_of_blocked hblocked (by simp) (by simp)] at hstarted
    simpa using hstarted
  · have hpending := h.counts.pending x
    rw [hqueue, h.total_of_blocked hblocked (by simp) (by simp),
      h.total_of_blocked hblocked (by simp) (by simp)] at hpending
    simpa using hpending
  · rcases st with _ | ⟨a, st⟩
    · exact .inl rfl
    · obtain rfl := h.singleton_of_blocked hblocked hst
      rcases h.resting_of_blocked hblocked hst with rfl | ⟨w, rounds, rfl, hnum⟩
      · exact .inr rfl
      · rw [h.counts.num, hqueue, h.total_of_blocked hblocked (by simp) (by simp)] at hnum
        simp at hnum

end Progress

theorem Inv.nodup_submitted (h : Inv n s) : s.submitted.Nodup :=
  List.Nodup.of_map Prod.fst h.counts.ids

/-- A waiter that counts nothing has all its tasks finished. -/
theorem Inv.finished_of_num {w : ℕ} {todo : List Task} {rounds : List (List Task)} (h : Inv n s)
    (hst : s.threads[i]? = some (.code w todo rounds .test :: st)) (hnum : s.num w = 0)
    {x : ℕ × ℕ} (hx : x ∈ s.submitted) (hxw : x.2 = w) : x ∈ s.finished := by
  rw [h.counts.num] at hnum
  have howed : ∀ {j : ℕ} {st' : Stack} {b : Activation}, s.threads[j]? = some st' → b ∈ st' →
      b.owed w = 0 := by
    intro j st' b hst' hb
    have := le_total (g := owed w) hst' hb
    omega
  by_contra hnot
  have hpending := h.counts.pending x
  have hpos : 0 < s.submitted.count x := count_pos_iff.mpr hx
  rw [count_eq_zero.mpr hnot] at hpending
  rcases (by omega : 0 < (s.queue.map Entry.mark).count x ∨
      0 < total (running x) s.threads ∨
      0 < total (pushes x) s.threads) with hqueue | hrunning | hpushes
  · obtain ⟨e, he, rfl⟩ := mem_map.mp (count_pos_iff.mp hqueue)
    have : 0 < (s.queue.map Entry.wo).count w :=
      count_pos_iff.mpr (mem_map.mpr ⟨e, he, hxw⟩)
    omega
  · obtain ⟨j, st', b, hst', hb, hrun⟩ := exists_of_total_pos hrunning
    have hzero := howed hst' hb
    cases b with
    | leaf => simp at hrun
    | run flush pt =>
      cases pt with
      | call e =>
        obtain rfl : e.mark = x := by
          by_contra hne
          simp [hne] at hrun
        simp [← hxw, Entry.mark] at hzero
      | _ => simp at hrun
    | code w' todo' rounds' pt =>
      cases pt with
      | inPlace id =>
        obtain rfl : (id, w') = x := by
          by_contra hne
          simp [hne] at hrun
        obtain rfl : w' = w := hxw
        have hle := add_le_total (g := owns w') hst (mem_cons_self) hst' hb
          (by simp)
        have hone := h.counts.owns w'
        simp at hle
        omega
      | _ => simp at hrun
  · obtain ⟨j, st', b, hst', hb, hpush⟩ := exists_of_total_pos hpushes
    have hzero := howed hst' hb
    cases b with
    | code w' todo' rounds' pt =>
      cases pt with
      | pushing e =>
        obtain rfl : e.mark = x := by
          by_contra hne
          simp [hne] at hpush
        simp [← hxw, Entry.mark] at hzero
      | _ => simp at hpush
    | _ => simp at hpush

def Action.isGo : Action → Bool
  | .go _ _ => true
  | .spurious _ => false

/-- A run makes at most as many steps as there was work, apart from spurious wakeups. -/
theorem Inv.work_run : ∀ (actions : List Action) (s s' : State), Inv n s →
    Runs.run (State.step max) s actions = some s' →
    s'.work + actions.countP Action.isGo ≤ s.work + 2 * actions.countP (!·.isGo)
  | [], _, _, _, hs' => by
    cases hs'
    simp
  | action :: actions, s, s', h, hs' => by
    obtain ⟨t, ht, hs'⟩ := Option.bind_eq_some_iff.mp hs'
    have ih := Inv.work_run actions t s' (h.step ht) hs'
    cases action with
    | go i woken =>
      have hlt : t.work < s.work := (h.go ht).2
      rw [countP_cons_of_pos rfl, countP_cons_of_neg (by simp [Action.isGo])]
      omega
    | spurious i =>
      have hle : t.work ≤ s.work + 2 := (h.spurious ht).2
      rw [countP_cons_of_neg (by simp [Action.isGo]), countP_cons_of_pos rfl]
      omega

/-- No deadlock, no task lost or run twice, and no `wait` that returns early. -/
structure Sound (max : ℕ) (s : State) : Prop where
  /-- Where every thread is blocked no task is queued or unfinished, each submitted one has run,
  and every `wait` has returned. -/
  progress : (∀ i, Blocked max s i) → s.queue = [] ∧
    (∀ x ∈ s.submitted, s.started.count x = 1 ∧ s.finished.count x = 1) ∧
    ∀ (i : ℕ) (st : Stack), s.threads[i]? = some st → st = [] ∨ st = [.run false .lock]
  /-- A task runs at most once, and only if submitted. -/
  once : s.submitted.Nodup ∧ s.started.Nodup ∧ s.started ⊆ s.submitted
  /-- `wait` returns only when the tasks of the waiter are finished. -/
  waits : ∀ (i woken : ℕ) (s' : State) (w : ℕ) (todo : List Task) (rounds : List (List Task)),
    s.top i = some (.code w todo rounds .test) → s.go max i woken = some s' →
    s'.top i = some (.code w todo rounds .idle) → ∀ x ∈ s.submitted, x.2 = w → x ∈ s.finished
  /-- From here the threads take so many steps at most, and two more for each spurious wake-up. -/
  ends : ∀ (actions : List Action) (s' : State), Runs.run (step max) s actions = some s' →
    actions.countP Action.isGo ≤ s.work + 2 * actions.countP (!·.isGo)

theorem Inv.sound (h : Inv n s) : Sound max s where
  progress hblocked := by
    obtain ⟨hstarted, hfinished, hthreads⟩ := h.done_of_blocked hblocked
    refine ⟨h.queue_of_blocked hblocked, fun x hx => ?_, hthreads⟩
    have hone := count_eq_one_of_mem h.nodup_submitted hx
    exact ⟨(hstarted x).trans hone, (hfinished x).trans hone⟩
  once := by
    have hle : ∀ x, s.started.count x ≤ s.submitted.count x := fun x => by
      have := h.counts.started x
      omega
    refine ⟨h.nodup_submitted, nodup_iff_count_le_one.mpr fun x => ?_, fun x hx => ?_⟩
    · exact (hle x).trans (nodup_iff_count_le_one.mp h.nodup_submitted x)
    · exact count_pos_iff.mp ((count_pos_iff.mpr hx).trans_le (hle x))
  waits i woken s' w todo rounds htop hs' hidle x hx hw := by
    obtain ⟨hawake, a, st, hst, hs'⟩ := go_eq_some hs'
    obtain rfl : a = .code w todo rounds .test := by simpa [top_eq hst] using htop
    simp only [State.stepTop] at hs'
    split_ifs at hs' with hnum <;> cases hs'
    · exact h.finished_of_num hst hnum hx hw
    · -- the thread goes to sleep and does not return
      have htop' : top { s with asleep := Function.update s.asleep i true } i = s.top i := rfl
      rw [htop', htop] at hidle
      cases hidle
  ends actions s' hs' := by
    have := Inv.work_run actions s s' h hs'
    omega

/-- Waiting on the pool ends and does not end early, whatever the callers submit and in whatever
order the threads take their steps. -/
theorem run_sound (callers : List (List (List Task))) (max : ℕ) (actions : List Action) (s : State)
    (hs : Runs.run (step max) (init callers max) actions = some s) : Sound max s :=
  (Runs.inv_of_run (step max) (fun _ _ _ => Inv.step) actions _ s (inv_init callers max)
    hs).sound

/-- A caller submits a task that submits a leaf task, and waits for it; it runs both itself while
the worker has not begun. -/
def nestedRun : List Action := replicate 23 (.go 0 0)

theorem run_sound_nestedRun : ∃ s,
    Runs.run (step 2) (init [[[.node [[.leaf]]]]] 2) nestedRun = some s ∧ s.finished.length = 2 ∧
      Sound 2 s := by
  have hsome : (Runs.run (step 2) (init [[[.node [[.leaf]]]]] 2) nestedRun).any
      (fun s => s.finished.length == 2) = true := by decide
  obtain ⟨s, hs, hlen⟩ := (Option.any_eq_true _ _).mp hsome
  exact ⟨s, hs, by simpa using hlen, run_sound _ _ _ s hs⟩

end Inv

end Nerva.Pool
