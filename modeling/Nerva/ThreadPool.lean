import Nerva.Lib.Runs
import Mathlib.Data.Int.Notation

/-!
# The thread pool

`tools::threadpool` with its workers and the threads that call it. A step of a thread is what it
does while it holds the pool's mutex or a waiter's, or until it next wants one. Each thread has a
stack of activations: a thread that waits with the pool runs other tasks on its own stack.
-/

namespace Nerva.Pool

/-- What a task does: nothing with the pool, or rounds of submitting tasks with a waiter of its own
and then waiting for them with the pool. -/
inductive Task
  | leaf
  | node (rounds : List (List Task))

def Task.isLeaf : Task → Bool
  | leaf => true
  | node _ => false

structure Entry where
  id : ℕ
  wo : ℕ
  task : Task

def Entry.mark (e : Entry) : ℕ × ℕ := (e.id, e.wo)

inductive CodePoint
  | idle
  /-- before the next `submit` of the round, or before `wait` -/
  | next
  /-- in `submit`, the waiter incremented and the pool's mutex held -/
  | pushing (e : Entry)
  /-- in `submit`, running the task in place -/
  | inPlace (id : ℕ)
  /-- in `wait`, in `run(true)` -/
  | flush
  /-- in `wait`, before the test of `num`, also in `cv.wait` -/
  | test

inductive RunPoint
  /-- before the mutex is locked, also in `has_work.wait` -/
  | lock
  | head
  /-- in `e.f()` -/
  | call (e : Entry)
  /-- before `e.wo->dec()` -/
  | dec (e : Entry)
  | relock

inductive Activation
  | leaf
  /-- with the waiter `wo`, the tasks of the round still to be submitted and the rounds after it -/
  | code (wo : ℕ) (todo : List Task) (rounds : List (List Task)) (pt : CodePoint)
  | run (flush : Bool) (pt : RunPoint)

abbrev Stack := List Activation

def Activation.calls : Activation → Bool
  | .code _ _ _ (.inPlace _) => true
  | .run _ (.call _) => true
  | _ => false

def depth (st : Stack) : ℕ := st.countP Activation.calls

def Task.start (id : ℕ) : Task → Activation
  | leaf => .leaf
  | node rounds => .code id [] rounds .idle

/-- The pool, the stacks of its threads and which of them sleep in a condition variable; and the
tasks that have been submitted, begun and finished so far. -/
structure State where
  threads : List Stack
  asleep : ℕ → Bool
  queue : List Entry
  lock : Option ℕ
  active : ℕ
  num : ℕ → ℤ
  fresh : ℕ
  submitted : List (ℕ × ℕ)
  started : List (ℕ × ℕ)
  finished : List (ℕ × ℕ)

namespace State

variable (max : ℕ) (s : State) (i : ℕ)

def top : Option Activation := s.threads[i]?.bind List.head?

@[simp] def setStack (st : Stack) : State := { s with threads := s.threads.set i st }

def awaitsWork : Bool :=
  s.asleep i && match s.top i with
    | some (.run _ .lock) => true
    | _ => false

def awaits (wo : ℕ) : Bool :=
  s.asleep i && match s.top i with
    | some (.code w _ _ .test) => w == wo
    | _ => false

/-- `has_work.notify_one()`, which wakes `woken` or, if none sleeps there, no thread. -/
def notifyOne (woken : ℕ) : Option State :=
  if s.awaitsWork woken then some { s with asleep := fun j => s.asleep j && j != woken }
  else if (List.range s.threads.length).any s.awaitsWork then none
  else some s

def notifyAll (wo : ℕ) : State := { s with asleep := fun j => s.asleep j && !s.awaits j wo }

def ret : Stack → State
  | .run flush (.call e) :: st =>
    { s.setStack i (.run flush (.dec e) :: st) with finished := e.mark :: s.finished }
  | .code w todo rounds (.inPlace id) :: st =>
    { s.setStack i (.code w todo rounds .next :: st) with finished := (id, w) :: s.finished }
  | st => s.setStack i st

/-- `submit` up to `inc`, or in place. -/
def submit (w : ℕ) (t : Task) (todo : List Task) (rounds : List (List Task)) (st : Stack) :
    Option State :=
  if s.lock.isSome then none
  else
    let e : Entry := ⟨s.fresh, w, t⟩
    let s := { s with fresh := s.fresh + 1, submitted := e.mark :: s.submitted }
    if !t.isLeaf && ((s.active == max && !s.queue.isEmpty) || 0 < depth st) then
      some { s.setStack i (t.start e.id :: .code w todo rounds (.inPlace e.id) :: st) with
        started := e.mark :: s.started }
    else
      some { s.setStack i (.code w todo rounds (.pushing e) :: st) with
        lock := some i
        num := Function.update s.num w (s.num w + 1) }

def enqueue (e : Entry) (queue : List Entry) : List Entry :=
  if e.task.isLeaf then e :: queue else queue ++ [e]

/-- The rest of `submit`, but for the notification. -/
@[simp] def push (e : Entry) (w : ℕ) (todo : List Task) (rounds : List (List Task)) (st : Stack) :
    State :=
  { s.setStack i (.code w todo rounds .next :: st) with
    queue := enqueue e s.queue
    lock := none }

/-- `run` takes the first task from the queue and calls it. -/
@[simp] def callTask (flush : Bool) (e : Entry) (queue : List Entry) (st : Stack) : State :=
  { s.setStack i (e.task.start e.id :: .run flush (.call e) :: st) with
    active := s.active + 1, queue, lock := none, started := e.mark :: s.started }

def awaitWork (flush : Bool) (st : Stack) : State :=
  { s.setStack i (.run flush .lock :: st) with
    lock := none, asleep := Function.update s.asleep i true }

def flushed : Stack → State
  | .code w todo rounds .flush :: st =>
    { s.setStack i (.code w todo rounds .test :: st) with lock := none }
  | st => { s.setStack i st with lock := none }

def loopHead (flush : Bool) (st : Stack) : State :=
  match s.queue with
  | e :: queue => s.callTask i flush e queue st
  | [] => if flush then s.flushed i st else s.awaitWork i flush st

@[simp] def decNum (flush : Bool) (e : Entry) (st : Stack) : State :=
  { s.setStack i (.run flush .relock :: st) with
    num := Function.update s.num e.wo (s.num e.wo - 1) }

def dec (flush : Bool) (e : Entry) (st : Stack) : State :=
  let s := s.decNum i flush e st
  if s.num e.wo = 0 then s.notifyAll e.wo else s

/-- The next step of a thread that is awake, unless it needs the mutex and another has it. -/
def stepTop (woken : ℕ) : Activation → Stack → Option State
  | .leaf, st => some (s.ret i st)
  | .code _ _ [] .idle, st => some (s.ret i st)
  | .code w _ (todo :: rounds) .idle, st => some (s.setStack i (.code w todo rounds .next :: st))
  | .code w (t :: todo) rounds .next, st => s.submit max i w t todo rounds st
  | .code w [] rounds .next, st =>
    some (s.setStack i (.run true .lock :: .code w [] rounds .flush :: st))
  | .code w todo rounds (.pushing e), st => (s.push i e w todo rounds st).notifyOne woken
  | .code w todo rounds .test, st =>
    if s.num w = 0 then some (s.setStack i (.code w todo rounds .idle :: st))
    else some { s with asleep := Function.update s.asleep i true }
  | .run flush .lock, st =>
    if s.lock.isSome then none
    else some { s.setStack i (.run flush .head :: st) with lock := some i }
  | .run flush .head, st => some (s.loopHead i flush st)
  | .run flush (.dec e), st => some (s.dec i flush e st)
  | .run flush .relock, st =>
    if s.lock.isSome then none
    else
      some { s.setStack i (.run flush .head :: st) with lock := some i, active := s.active - 1 }
  | .code _ _ _ (.inPlace _), _ => none
  | .code _ _ _ .flush, _ => none
  | .run _ (.call _), _ => none

end State

/-- A thread takes its next step, with the thread to notify should there be one; or it wakes up
without having been notified. -/
inductive Action
  | go (i : ℕ) (woken : ℕ)
  | spurious (i : ℕ)

def State.go (max : ℕ) (s : State) (i woken : ℕ) : Option State :=
  if s.asleep i then none
  else
    match s.threads[i]? with
    | some (a :: st) => s.stepTop max i woken a st
    | _ => none

def State.step (max : ℕ) (s : State) : Action → Option State
  | .go i woken => s.go max i woken
  | .spurious i =>
    if s.asleep i then some { s with asleep := Function.update s.asleep i false } else none

/-- The threads of the callers, each with the rounds it is going to do, and `max - 1` workers. -/
def init (callers : List (List (List Task))) (max : ℕ) : State where
  threads := callers.mapIdx (fun i rounds => [.code i [] rounds .idle]) ++
    List.replicate (max - 1) [.run false .lock]
  asleep _ := false
  queue := []
  lock := none
  active := 0
  num _ := 0
  fresh := callers.length + (max - 1)
  submitted := []
  started := []
  finished := []

end Nerva.Pool
