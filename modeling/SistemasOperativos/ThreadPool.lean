import SistemasOperativos.TransitionRuns
import SistemasOperativos.ConditionMonitor
import Mathlib.Tactic

/-!
# The thread pool with one stop marker for each worker

Workers take work items from a shared queue until they take a null. Any thread
may submit items, also a worker from inside the item that it executes.
Destroying the pool sets a flag, puts one null for each worker behind the
accepted items and joins the workers. Every thread advances one statement at a
time, in any order.
-/

namespace SistemasOperativos.ThreadPool

open TransitionRuns ConditionMonitor

/-- `NTHREADS`. -/
abbrev nthreads : ℕ := 8

/-- The workers of the pool, and the threads that use it. -/
inductive Thread (κ : Type*)
  | worker (i : Fin nthreads)
  | client (c : κ)
  deriving DecidableEq, Repr

/-- `workitem_t`. The identity stands for the address of the allocation. -/
structure WorkItem (φ α : Type*) where
  id : ℕ
  func : φ
  arg : α

/-- The condition variable of the queue. -/
inductive Cond
  | hasItems
  deriving DecidableEq, Repr

/-- The code that a call of `tp_submit` returns to. -/
inductive Caller (φ α : Type*)
  | client
  /-- The work item that the worker executes. -/
  | item (running : WorkItem φ α)

/-- The code that a call of `queue_put` returns to. -/
inductive PutCaller (φ α : Type*)
  | submit (k : Caller φ α)
  /-- The loop of `tp_destroy`, with its index. -/
  | destroy (i : ℕ)

/-- The statements of `queue_put`. -/
inductive PutStage
  | locking
  /-- `create_node` and `insert_tail_list`. -/
  | inserting
  | signaling
  | unlocking
  deriving DecidableEq, Repr

/-- Where a thread stands, by its next statement. -/
inductive Pc (φ α : Type*)
  /-- Outside the pool's functions. -/
  | idle
  /-- `tp_submit`: the first `atomic_load`. -/
  | loading (k : Caller φ α) (func : φ) (arg : α)
  | submitLocking (k : Caller φ α) (func : φ) (arg : α)
  /-- The second `atomic_load`, and `create_wi`. -/
  | submitChecking (k : Caller φ α) (func : φ) (arg : α)
  /-- `queue_put`, of an item or of a null. -/
  | putting (k : PutCaller φ α) (item : Option (WorkItem φ α)) (stage : PutStage)
  | submitUnlocking (k : Caller φ α)
  /-- `tp_destroy`: `atomic_compare_exchange_strong`. -/
  | exchanging
  | destroyLocking
  /-- The loop that puts the nulls. -/
  | filling (i : ℕ)
  | destroyUnlocking
  /-- The loop of `pthread_join`. -/
  | joining (i : ℕ)
  | queueDestroying
  | lockDestroying
  /-- `queue_get`. -/
  | getLocking
  | getChecking
  | getWaiting
  | getRemoving
  | getUnlocking (item : Option (WorkItem φ α))
  /-- `oper_func`: the test for a null. -/
  | testing (item : Option (WorkItem φ α))
  | calling (item : WorkItem φ α)
  /-- Inside the item's function. -/
  | running (item : WorkItem φ α)
  | finished

/-- The state of a pool and of the threads that use it, with the history of the run. -/
structure State (κ φ α : Type*) where
  /-- `queue.list`, by the items of its nodes. -/
  list : List (Option (WorkItem φ α))
  /-- `queue.lock` and `queue.has_items`. -/
  queue : Monitor (Thread κ) Cond
  destroying : ℕ
  /-- `lock`. -/
  lock : Monitor (Thread κ) Empty
  pc : Thread κ → Pc φ α
  /-- Number of work items created. -/
  created : ℕ
  /-- Items put into the queue, oldest first. -/
  enqueued : List (WorkItem φ α)
  /-- Number of nulls put into the queue. -/
  nulls : ℕ
  /-- Items taken out of the queue, with the thread that took them, oldest first. -/
  taken : List (Thread κ × WorkItem φ α)
  /-- Nulls that each thread took out of the queue. -/
  stops : Thread κ → ℕ
  /-- Items whose function each thread has called on their argument, oldest first. -/
  called : Thread κ → List (WorkItem φ α)
  /-- The thread that set `destroying`. -/
  winner : Option (Thread κ)
  /-- Executions of `queue_destroy`. -/
  queueDestroyed : ℕ
  /-- Executions of `pthread_mutex_destroy` on `lock`. -/
  lockDestroyed : ℕ

/-- What a thread does. -/
inductive Action (κ φ α : Type*)
  /-- Call `tp_submit`, outside the pool or from the item that it executes. -/
  | submit (func : φ) (arg : α)
  /-- Call `tp_destroy`. -/
  | destroy
  /-- Execute the next statement. The function of an item returns by it. -/
  | run
  /-- Execute a signal, naming the sleeper that it wakes. -/
  | signal (woken : Option (Thread κ))
  /-- Wake for no reason. -/
  | wake

variable {κ φ α : Type*} [DecidableEq κ]

/-- A thread moves on. -/
def State.goto (s : State κ φ α) (p : Thread κ) (q : Pc φ α) : State κ φ α :=
  { s with pc := Function.update s.pc p q }

/-- Where `tp_submit` returns to. -/
def Caller.back : Caller φ α → Pc φ α
  | .client => .idle
  | .item x => .running x

/-- Where `queue_put` returns to. -/
def PutCaller.back : PutCaller φ α → Pc φ α
  | .submit k => .submitUnlocking k
  | .destroy i => .filling (i + 1)

/-- A thread appends a node to the list. -/
def State.insert (s : State κ φ α) : Option (WorkItem φ α) → State κ φ α
  | some x => { s with list := s.list ++ [some x], enqueued := s.enqueued ++ [x] }
  | none => { s with list := s.list ++ [none], nulls := s.nulls + 1 }

/-- A thread takes the first node off the list. -/
def State.remove (s : State κ φ α) (p : Thread κ) (rest : List (Option (WorkItem φ α))) :
    Option (WorkItem φ α) → State κ φ α
  | some x => { s with list := rest, taken := s.taken ++ [(p, x)] }
  | none => { s with list := rest, stops := Function.update s.stops p (s.stops p + 1) }

/-- One statement of `queue_put`, but the signal. -/
def State.put (s : State κ φ α) (p : Thread κ) (k : PutCaller φ α)
    (item : Option (WorkItem φ α)) : PutStage → Option (State κ φ α)
  | .locking => (s.queue.lock p).map fun m => { s with queue := m }.goto p (.putting k item .inserting)
  | .inserting => some ((s.insert item).goto p (.putting k item .signaling))
  | .signaling => none
  | .unlocking => (s.queue.unlock p).map fun m => { s with queue := m }.goto p k.back

/-- One statement of a thread. -/
def State.run (s : State κ φ α) (p : Thread κ) : Option (State κ φ α) :=
  match s.pc p with
  | .idle => none
  | .loading k func arg =>
    if s.destroying ≠ 0 then some (s.goto p k.back) else some (s.goto p (.submitLocking k func arg))
  | .submitLocking k func arg =>
    (s.lock.lock p).map fun m => { s with lock := m }.goto p (.submitChecking k func arg)
  | .submitChecking k func arg =>
    if s.destroying = 0 then
      some ({ s with created := s.created + 1 }.goto p
        (.putting (.submit k) (some ⟨s.created, func, arg⟩) .locking))
    else some (s.goto p (.submitUnlocking k))
  | .putting k item stage => s.put p k item stage
  | .submitUnlocking k => (s.lock.unlock p).map fun m => { s with lock := m }.goto p k.back
  | .exchanging =>
    if s.destroying = 0 then
      some ({ s with destroying := 1, winner := some p }.goto p .destroyLocking)
    else some (s.goto p .queueDestroying)
  | .destroyLocking => (s.lock.lock p).map fun m => { s with lock := m }.goto p (.filling 0)
  | .filling i =>
    if i < nthreads then some (s.goto p (.putting (.destroy i) none .locking))
    else some (s.goto p .destroyUnlocking)
  | .destroyUnlocking => (s.lock.unlock p).map fun m => { s with lock := m }.goto p (.joining 0)
  | .joining i =>
    if h : i < nthreads then
      match s.pc (.worker ⟨i, h⟩) with
      | .finished => some (s.goto p (.joining (i + 1)))
      | _ => none
    else some (s.goto p .queueDestroying)
  | .queueDestroying =>
    some ({ s with queueDestroyed := s.queueDestroyed + 1 }.goto p .lockDestroying)
  | .lockDestroying => some ({ s with lockDestroyed := s.lockDestroyed + 1 }.goto p .idle)
  | .getLocking => (s.queue.lock p).map fun m => { s with queue := m }.goto p .getChecking
  | .getChecking =>
    if s.list.isEmpty then
      (s.queue.wait .hasItems p).map fun m => { s with queue := m }.goto p .getWaiting
    else some (s.goto p .getRemoving)
  | .getWaiting =>
    (s.queue.relock .hasItems p).map fun m => { s with queue := m }.goto p .getChecking
  | .getRemoving =>
    match s.list with
    | [] => none
    | item :: rest => some ((s.remove p rest item).goto p (.getUnlocking item))
  | .getUnlocking item =>
    (s.queue.unlock p).map fun m => { s with queue := m }.goto p (.testing item)
  | .testing none => some (s.goto p .finished)
  | .testing (some x) => some (s.goto p (.calling x))
  | .calling x =>
    some ({ s with called := Function.update s.called p (s.called p ++ [x]) }.goto p (.running x))
  | .running _ => some (s.goto p .getLocking)
  | .finished => none

/-- One action of a thread. -/
def State.next (s : State κ φ α) (l : Thread κ × Action κ φ α) : Option (State κ φ α) :=
  match l.2 with
  | .submit func arg =>
    match s.pc l.1 with
    | .idle => some (s.goto l.1 (.loading .client func arg))
    | .running x => some (s.goto l.1 (.loading (.item x) func arg))
    | _ => none
  | .destroy =>
    match s.pc l.1 with
    | .idle => some (s.goto l.1 .exchanging)
    | _ => none
  | .run => s.run l.1
  | .signal w =>
    match s.pc l.1 with
    | .putting k item .signaling =>
      (s.queue.signal .hasItems w).map fun m =>
        { s with queue := m }.goto l.1 (.putting k item .unlocking)
    | _ => none
  | .wake =>
    match s.pc l.1 with
    | .getWaiting => (s.queue.wake .hasItems l.1).map fun m => { s with queue := m }
    | _ => none

/-- The pool after `tp_init`. -/
def initial : State κ φ α where
  list := []
  queue := .new
  destroying := 0
  lock := .new
  pc
    | .worker _ => .getLocking
    | .client _ => .idle
  created := 0
  enqueued := []
  nulls := 0
  taken := []
  stops := fun _ => 0
  called := fun _ => []
  winner := none
  queueDestroyed := 0
  lockDestroyed := 0

/-- All runs of a pool, with any number of calls of `tp_submit` and `tp_destroy`. -/
def pool (κ φ α : Type*) [DecidableEq κ] : System (State κ φ α) (Thread κ × Action κ φ α) :=
  ofNext (fun s => s = initial) State.next

end SistemasOperativos.ThreadPool
