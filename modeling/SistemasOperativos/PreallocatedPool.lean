import SistemasOperativos.TransitionRuns
import SistemasOperativos.ConditionMonitor

/-!
# The thread pool with preallocated work items

The work items are the elements of an array in the pool. Those that are not in
use are linked in a free list. `tp_submit` takes one from there and links it
into the queue, and a worker that has executed an item gives it back. All of
this happens under one mutex. The mutex is of the default kind, which does not
check who releases it.
-/

namespace SistemasOperativos.PreallocatedPool

open TransitionRuns ConditionMonitor

/-- `MAX_THREADS`. -/
abbrev maxThreads : ℕ := 16

/-- Number of elements of `freepool`. -/
abbrev poolSize : ℕ := 1024

/-- The workers of the pool, and the threads that use it. -/
inductive Thread (κ : Type*)
  | worker (i : Fin maxThreads)
  | client (c : κ)
  deriving DecidableEq, Repr

/-- An element of `freepool`, by its index. A `work_item_t *` is one or null. -/
abbrev Item : Type := Fin poolSize

/-- `work_item_t`, without the link. -/
structure WorkItem (φ α : Type*) where
  func : Option φ
  arg : Option α

/-- The condition variable of the pool. -/
inductive Cond
  | hasItems
  deriving DecidableEq, Repr

/-- The code that a call of the pool's functions returns to. -/
inductive Caller
  | client
  /-- The work item that the worker executes. -/
  | item (i : Item)
  deriving DecidableEq, Repr

/-- Where a thread stands, by its next statement. -/
inductive Pc (φ α : Type*)
  /-- Outside the pool's functions. -/
  | idle
  | submitLocking (k : Caller) (func : Option φ) (arg : Option α)
  /-- `wi_create`. -/
  | creating (k : Caller) (func : Option φ) (arg : Option α)
  /-- `insert_tail_list` on the item that `wi_create` returned. -/
  | linking (k : Caller) (wi : Option Item)
  | signaling (k : Caller)
  | submitUnlocking (k : Caller)
  | destroyLocking (k : Caller)
  | broadcasting (k : Caller)
  | destroyUnlocking (k : Caller)
  /-- `pool_func`. -/
  | locking
  /-- The test of the waiting loop. -/
  | checking
  /-- Inside `pthread_cond_wait`. -/
  | waiting
  | removing
  | unlocking (wi : Option Item)
  /-- The test of `wi->func`. -/
  | testing (wi : Option Item)
  | calling (i : Item)
  /-- Inside the item's function. -/
  | running (i : Item)
  | relocking (i : Item)
  /-- `wi_destroy`. -/
  | freeing (i : Item)
  /-- `pthread_mutex_unlock` behind the loop. -/
  | exitUnlocking
  | finished

/-- The state of a pool and of the threads that use it. -/
structure State (κ φ α : Type*) where
  /-- `wi_free_list`. -/
  free : List Item
  freepool : Item → WorkItem φ α
  /-- `queue`. A null in it is a link that `tp_submit` made through a null pointer. -/
  queue : List (Option Item)
  /-- `lock` and `hasItems`. -/
  monitor : Monitor (Thread κ) Cond
  pc : Thread κ → Pc φ α
  /-- The functions called, each with its argument, oldest first. -/
  calls : List (φ × Option α)

/-- What a thread does. -/
inductive Action (κ φ α : Type*)
  /-- Call `tp_submit`, outside the pool or from the item that it executes. -/
  | submit (func : Option φ) (arg : Option α)
  /-- Call `tp_destroy`, likewise. -/
  | destroy
  /-- Execute the next statement. The function of an item returns by it. -/
  | run
  /-- Execute a signal, naming the sleeper that it wakes. -/
  | signal (woken : Option (Thread κ))
  /-- Wake for no reason. -/
  | wake

variable {κ φ α : Type*} [DecidableEq κ]

/-- A thread moves on. -/
def State.goto (s : State κ φ α) (p : Thread κ) (q : Pc φ α) : State κ φ α :=
  { s with pc := Function.update s.pc p q }

/-- Where the pool's functions return to. -/
def Caller.back : Caller → Pc φ α
  | .client => .idle
  | .item i => .running i

/-- `pthread_mutex_lock`. -/
def State.lock (s : State κ φ α) (p : Thread κ) (q : Pc φ α) : Option (State κ φ α) :=
  (s.monitor.lock p).map fun m => { s with monitor := m }.goto p q

/-- `pthread_mutex_unlock`, by whichever thread. -/
def State.unlock (s : State κ φ α) : State κ φ α :=
  { s with monitor := { s.monitor with holder := none } }

/-- The release and the falling asleep of `pthread_cond_wait`. -/
def State.sleep (s : State κ φ α) (p : Thread κ) : State κ φ α :=
  { s with monitor := ⟨none, Function.update s.monitor.asleep .hasItems
      (insert p (s.monitor.asleep .hasItems))⟩ }

/-- `wi_create`, with the item that it returns. -/
def State.wiCreate (s : State κ φ α) (func : Option φ) (arg : Option α) :
    State κ φ α × Option Item :=
  match s.free with
  | [] => (s, none)
  | i :: rest =>
    ({ s with free := rest, freepool := Function.update s.freepool i ⟨func, arg⟩ }, some i)

/-- `wi_destroy`. -/
def State.wiDestroy (s : State κ φ α) (i : Item) : State κ φ α := { s with free := i :: s.free }

/-- One statement of a thread. Linking or reading an item through a null pointer is stuck. -/
def State.run (s : State κ φ α) (p : Thread κ) : Option (State κ φ α) :=
  match s.pc p with
  | .idle => none
  | .submitLocking k func arg => s.lock p (.creating k func arg)
  | .creating k func arg =>
    some ((s.wiCreate func arg).1.goto p (.linking k (s.wiCreate func arg).2))
  | .linking _ none => none
  | .linking k (some i) =>
    some ({ s with queue := s.queue ++ [some i] }.goto p (.signaling k))
  | .signaling _ => none
  | .submitUnlocking k => some (s.unlock.goto p k.back)
  | .destroyLocking k => s.lock p (.broadcasting k)
  | .broadcasting k =>
    some ({ s with monitor := s.monitor.broadcast .hasItems }.goto p (.destroyUnlocking k))
  | .destroyUnlocking k => some (s.unlock.goto p k.back)
  | .locking => s.lock p .checking
  | .checking =>
    if s.queue.isEmpty then some ((s.sleep p).goto p .waiting) else some (s.goto p .removing)
  | .waiting =>
    (s.monitor.relock .hasItems p).map fun m => { s with monitor := m }.goto p .checking
  | .removing =>
    match s.queue with
    | [] => none
    | wi :: rest => some ({ s with queue := rest }.goto p (.unlocking wi))
  | .unlocking wi => some (s.unlock.goto p (.testing wi))
  | .testing none => none
  | .testing (some i) =>
    match (s.freepool i).func with
    | none => some (s.goto p .exitUnlocking)
    | some _ => some (s.goto p (.calling i))
  | .calling i => (s.freepool i).func.map fun f =>
      { s with calls := s.calls ++ [(f, (s.freepool i).arg)] }.goto p (.running i)
  | .running i => some (s.goto p (.relocking i))
  | .relocking i => s.lock p (.freeing i)
  | .freeing i => some ((s.wiDestroy i).goto p .checking)
  | .exitUnlocking => some (s.unlock.goto p .finished)
  | .finished => none

/-- The code from which a thread may call the pool's functions. -/
def Pc.caller : Pc φ α → Option Caller
  | .idle => some .client
  | .running i => some (.item i)
  | _ => none

/-- One action of a thread. -/
def State.next (s : State κ φ α) (l : Thread κ × Action κ φ α) : Option (State κ φ α) :=
  match l.2 with
  | .submit func arg => (s.pc l.1).caller.map fun k => s.goto l.1 (.submitLocking k func arg)
  | .destroy => (s.pc l.1).caller.map fun k => s.goto l.1 (.destroyLocking k)
  | .run => s.run l.1
  | .signal w =>
    match s.pc l.1 with
    | .signaling k => (s.monitor.signal .hasItems w).map fun m =>
        { s with monitor := m }.goto l.1 (.submitUnlocking k)
    | _ => none
  | .wake =>
    match s.pc l.1 with
    | .waiting => (s.monitor.wake .hasItems l.1).map fun m => { s with monitor := m }
    | _ => none

/-- `init_wi_pool` links the elements in their order. -/
def initWiPool : List Item := List.finRange poolSize

/-- The pool after `tp_init`. -/
def initial : State κ φ α where
  free := initWiPool
  freepool := fun _ => ⟨none, none⟩
  queue := []
  monitor := .new
  pc
    | .worker _ => .locking
    | .client _ => .idle
  calls := []

/-- All runs of a pool, with any number of calls of `tp_submit` and `tp_destroy`. -/
def pool (κ φ α : Type*) [DecidableEq κ] : System (State κ φ α) (Thread κ × Action κ φ α) :=
  ofNext (fun s => s = initial) State.next

end SistemasOperativos.PreallocatedPool
