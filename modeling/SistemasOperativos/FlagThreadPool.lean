import SistemasOperativos.ThreadPool

/-!
# The thread pool whose workers test a flag

The pool of the earlier lecture. A worker tests the flag before it goes for an
item, without the pool's lock. `tp_destroy` sets the flag, queues one null for
each worker and joins the workers, and holds the pool's lock all the while.
The work items and the queue are those of the other pool.
-/

namespace SistemasOperativos.FlagThreadPool

open TransitionRuns ConditionMonitor
open ThreadPool (nthreads WorkItem Cond Caller PutStage)

deriving instance DecidableEq for ThreadPool.WorkItem, ThreadPool.Caller

/-- The workers of the pool, the threads that submit to it, and the one that destroys it. -/
inductive Thread (κ : Type*)
  | worker (i : Fin nthreads)
  | client (c : κ)
  | destroyer
  deriving DecidableEq, Repr

/-- A call of `queue_put`, with the code that it returns to. -/
inductive Put (φ α : Type*)
  | submit (k : Caller φ α) (wi : WorkItem φ α)
  /-- The loop of `tp_destroy` puts a null. -/
  | destroy (i : ℕ)
  deriving DecidableEq

/-- Where a thread stands, by its next statement. -/
inductive Pc (φ α : Type*)
  /-- Outside the pool's functions. -/
  | idle
  | submitLocking (k : Caller φ α) (func : φ) (arg : α)
  /-- The test of the flag, and `create_wi`. -/
  | submitChecking (k : Caller φ α) (func : φ) (arg : α)
  | putting (k : Put φ α) (stage : PutStage)
  | submitUnlocking (k : Caller φ α)
  /-- `tp_destroy`. -/
  | destroyLocking
  | destroyChecking
  /-- `pool->terminated = true`. -/
  | terminating
  /-- The loop that puts the nulls. -/
  | filling (i : ℕ)
  /-- The loop of `pthread_join`. -/
  | joining (i : ℕ)
  | destroyUnlocking
  | queueDestroying
  | lockDestroying
  | returned
  /-- `oper_func`: the test of the flag. -/
  | testing
  /-- `queue_get`. -/
  | getLocking
  | getChecking
  | getWaiting
  | getRemoving
  | getUnlocking (item : Option (WorkItem φ α))
  /-- The test for a null. -/
  | nullTesting (item : Option (WorkItem φ α))
  | calling (item : WorkItem φ α)
  /-- Inside the item's function. -/
  | running (item : WorkItem φ α)
  | finished
  deriving DecidableEq

/-- The state of a pool and of the threads that use it, with the history of the run. -/
structure State (κ φ α : Type*) where
  /-- `queue.list`, by the items of its nodes. -/
  list : List (Option (WorkItem φ α))
  /-- `queue.lock` and `queue.hasItems`. -/
  queue : Monitor (Thread κ) Cond
  terminated : Bool
  /-- `lock`. -/
  lock : Monitor (Thread κ) Empty
  pc : Thread κ → Pc φ α
  /-- Number of work items created. -/
  created : ℕ
  /-- Items put into the queue, oldest first. -/
  enqueued : List (WorkItem φ α)
  /-- Items whose function the workers have called on their argument, oldest first. -/
  called : List (WorkItem φ α)

/-- What a thread does. -/
inductive Action (κ φ α : Type*)
  /-- Call `tp_submit`, outside the pool or from the item that it executes. -/
  | submit (func : φ) (arg : α)
  /-- Execute the next statement. The function of an item returns by it. -/
  | run
  /-- Execute a signal, naming the sleeper that it wakes. -/
  | signal (woken : Option (Thread κ))
  /-- Wake for no reason. -/
  | wake

variable {κ φ α : Type*} [DecidableEq κ]

/-- A thread moves on. -/
def State.goto (s : State κ φ α) (p : Thread κ) (q : Pc φ α) : State κ φ α :=
  { s with pc := Function.update s.pc p q }

/-- Where `tp_submit` returns to. -/
def back : Caller φ α → Pc φ α
  | .client => .idle
  | .item x => .running x

/-- What `queue_put` puts. -/
def Put.item : Put φ α → Option (WorkItem φ α)
  | .submit _ wi => some wi
  | .destroy _ => none

/-- Where `queue_put` returns to. -/
def Put.back : Put φ α → Pc φ α
  | .submit k _ => .submitUnlocking k
  | .destroy i => .filling (i + 1)

/-- A thread appends a node to the list. -/
def State.insert (s : State κ φ α) (k : Put φ α) : State κ φ α :=
  { s with list := s.list ++ [k.item], enqueued := s.enqueued ++ k.item.toList }

/-- One statement of `queue_put`, but the signal. -/
def State.put (s : State κ φ α) (p : Thread κ) (k : Put φ α) : PutStage → Option (State κ φ α)
  | .locking => (s.queue.lock p).map fun m => { s with queue := m }.goto p (.putting k .inserting)
  | .inserting => some ((s.insert k).goto p (.putting k .signaling))
  | .signaling => none
  | .unlocking => (s.queue.unlock p).map fun m => { s with queue := m }.goto p k.back

/-- One statement of a thread. -/
def State.run (s : State κ φ α) (p : Thread κ) : Option (State κ φ α) :=
  match s.pc p with
  | .idle => none
  | .submitLocking k func arg =>
    (s.lock.lock p).map fun m => { s with lock := m }.goto p (.submitChecking k func arg)
  | .submitChecking k func arg =>
    if s.terminated then some (s.goto p (.submitUnlocking k))
    else some ({ s with created := s.created + 1 }.goto p
      (.putting (.submit k ⟨s.created, func, arg⟩) .locking))
  | .putting k stage => s.put p k stage
  | .submitUnlocking k => (s.lock.unlock p).map fun m => { s with lock := m }.goto p (back k)
  | .destroyLocking => (s.lock.lock p).map fun m => { s with lock := m }.goto p .destroyChecking
  | .destroyChecking =>
    if s.terminated then some (s.goto p .destroyUnlocking) else some (s.goto p .terminating)
  | .terminating => some ({ s with terminated := true }.goto p (.filling 0))
  | .filling i =>
    if i < nthreads then some (s.goto p (.putting (.destroy i) .locking))
    else some (s.goto p (.joining 0))
  | .joining i =>
    if h : i < nthreads then
      match s.pc (.worker ⟨i, h⟩) with
      | .finished => some (s.goto p (.joining (i + 1)))
      | _ => none
    else some (s.goto p .destroyUnlocking)
  | .destroyUnlocking =>
    (s.lock.unlock p).map fun m => { s with lock := m }.goto p .queueDestroying
  | .queueDestroying => some (s.goto p .lockDestroying)
  | .lockDestroying => some (s.goto p .returned)
  | .returned => none
  | .testing => if s.terminated then some (s.goto p .finished) else some (s.goto p .getLocking)
  | .getLocking => (s.queue.lock p).map fun m => { s with queue := m }.goto p .getChecking
  | .getChecking =>
    if s.list.isEmpty then
      (s.queue.wait .hasItems p).map fun m => { s with queue := m }.goto p .getWaiting
    else some (s.goto p .getRemoving)
  | .getWaiting =>
    (s.queue.relock .hasItems p).map fun m => { s with queue := m }.goto p .getChecking
  | .getRemoving =>
    match s.list with
    | [] => none
    | item :: rest => some ({ s with list := rest }.goto p (.getUnlocking item))
  | .getUnlocking item =>
    (s.queue.unlock p).map fun m => { s with queue := m }.goto p (.nullTesting item)
  | .nullTesting none => some (s.goto p .finished)
  | .nullTesting (some x) => some (s.goto p (.calling x))
  | .calling x => some ({ s with called := s.called ++ [x] }.goto p (.running x))
  | .running _ => some (s.goto p .testing)
  | .finished => none

/-- One action of a thread. -/
def State.next (s : State κ φ α) (l : Thread κ × Action κ φ α) : Option (State κ φ α) :=
  match l.2 with
  | .submit func arg =>
    match s.pc l.1 with
    | .idle => some (s.goto l.1 (.submitLocking .client func arg))
    | .running x => some (s.goto l.1 (.submitLocking (.item x) func arg))
    | _ => none
  | .run => s.run l.1
  | .signal w =>
    match s.pc l.1 with
    | .putting k .signaling => (s.queue.signal .hasItems w).map fun m =>
        { s with queue := m }.goto l.1 (.putting k .unlocking)
    | _ => none
  | .wake =>
    match s.pc l.1 with
    | .getWaiting => (s.queue.wake .hasItems l.1).map fun m => { s with queue := m }
    | _ => none

/-- The pool after `tp_init`, with one call of `tp_destroy` to come. -/
def initial : State κ φ α where
  list := []
  queue := .new
  terminated := false
  lock := .new
  pc
    | .worker _ => .testing
    | .client _ => .idle
    | .destroyer => .destroyLocking
  created := 0
  enqueued := []
  called := []

/-- All runs of a pool, with any number of calls of `tp_submit` and one of `tp_destroy`. -/
def pool (κ φ α : Type*) [DecidableEq κ] : System (State κ φ α) (Thread κ × Action κ φ α) :=
  ofNext (fun s => s = initial) State.next

end SistemasOperativos.FlagThreadPool
