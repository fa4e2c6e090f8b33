import Mathlib.Algebra.Ring.Int.Defs
import Mathlib.Algebra.Ring.Nat
import SistemasOperativos.IntrusiveList
import SistemasOperativos.UThread

/-!
# The user-thread library on its intrusive lists

The functions of uthread.c, semaphore.c and event.c with the list macros of
list.h on one memory of link fields. A descriptor owns one entry, and the frame
of a blocked call owns one entry in its wait block. A pointer that container_of
maps back from a node of another kind is undefined behaviour, and the step is
refused. The pointer walks of `sem_post` and `event_set` carry fuel.
-/

namespace SistemasOperativos.LinkedUThread

open IntrusiveList TransitionRuns
open UThread (PUThread Frame Call Command wrapInt)

/-- Everything that has a `LIST_ENTRY`: the three kinds of list head, the `link`
of a descriptor, and the `link` of the wait block in a thread's frame. -/
inductive Node (ι ε : Type) where
  | readyQueue
  | semWaiters (sem : ι)
  | eventWaiters (event : ε)
  | link (thread : PUThread)
  | block (thread : PUThread)
  deriving DecidableEq

/-- The library's static variables and everything its pointers lead to. -/
structure State (ι ε : Type) where
  /-- The link fields of all entries. -/
  memory : Memory (Node ι ε)
  /-- `running_thread`, with none for NULL. -/
  runningThread : Option PUThread
  /-- `main_thread`, with none for NULL. -/
  mainThread : Option PUThread
  /-- `number_of_threads`. -/
  numberOfThreads : ℕ
  /-- Descriptors between their malloc and their free. -/
  descriptors : List ℕ
  /-- Saved context of each suspended thread. -/
  context : PUThread → Frame ι ε
  /-- `units` of each semaphore. -/
  units : ι → ℤ
  /-- `limit` of each semaphore. -/
  limit : ι → ℤ
  /-- `signaled` of each event. -/
  signaled : ε → Bool
  /-- `header.thread` of the wait block in each thread's frame. -/
  blockThread : PUThread → Option PUThread
  /-- `units` of the wait block in each thread's frame. -/
  blockUnits : PUThread → ℤ

section Operations

variable {ι ε : Type} [DecidableEq ι] [DecidableEq ε]

/-- `container_of(entry, UTHREAD, link)`. -/
def uthreadOf : Node ι ε → Option PUThread
  | .link t => some t
  | _ => none

/-- `container_of(entry, WAIT_BLOCK, link)`, as the frame that holds the block. -/
def waitBlockOf : Node ι ε → Option PUThread
  | .block t => some t
  | _ => none

/-- `insert_tail_list(&ready_queue, &thread->link)`. -/
def insertReady (t : PUThread) (σ : State ι ε) : State ι ε :=
  { σ with memory := insertTailList σ.memory .readyQueue (.link t) }

/-- `extract_next_thread`. -/
def extractNextThread (σ : State ι ε) : Option (Option PUThread × State ι ε) :=
  if isListEmpty σ.memory .readyQueue then some (σ.mainThread, σ)
  else
    let removed := removeHeadList σ.memory .readyQueue
    match uthreadOf removed.1 with
    | none => none
    | some t => some (some t, { σ with memory := removed.2 })

/-- `context_switch`, with the frame that suspends the running thread. -/
def contextSwitch (frame : Frame ι ε) (next : Option PUThread) (σ : State ι ε) : State ι ε :=
  { σ with
    context := match σ.runningThread with
      | none => σ.context
      | some current => Function.update σ.context current frame
    runningThread := next }

/-- `schedule`. -/
def schedule (frame : Frame ι ε) (σ : State ι ε) : Option (State ι ε) :=
  match extractNextThread σ with
  | none => none
  | some (next, σ') => some (contextSwitch frame next σ')

/-- `ut_run` up to its context switch, or to its early return. -/
def utRun (σ : State ι ε) : Option (State ι ε) :=
  if σ.runningThread = none then
    if isListEmpty σ.memory .readyQueue then some σ
    else schedule .utRun { σ with mainThread := some .main, runningThread := some .main }
  else none

/-- The rest of `ut_run`, after the main thread is switched in again. -/
def utRunReturn (σ : State ι ε) : Option (State ι ε) :=
  if isListEmpty σ.memory .readyQueue ∧ σ.numberOfThreads = 0 then
    some { σ with runningThread := none, mainThread := none }
  else none

/-- `cleanup_thread`. -/
def cleanupThread (t : PUThread) (σ : State ι ε) : State ι ε :=
  match t with
  | .main => σ
  | .user b => { σ with descriptors := σ.descriptors.erase b }

/-- `internal_exit`. -/
def internalExit (current : PUThread) (next : Option PUThread) (σ : State ι ε) : State ι ε :=
  cleanupThread current { σ with runningThread := next }

/-- `ut_exit`. -/
def utExit (σ : State ι ε) : Option (State ι ε) :=
  let σ := { σ with numberOfThreads := σ.numberOfThreads - 1 }
  match σ.runningThread, extractNextThread σ with
  | some current, some (next, σ') => some (internalExit current next σ')
  | _, _ => none

/-- `ut_yield`. -/
def utYield (σ : State ι ε) : Option (State ι ε) :=
  if isListEmpty σ.memory .readyQueue then some σ
  else
    match σ.runningThread with
    | none => none
    | some current => schedule .utYield (insertReady current σ)

/-- `ut_deactivate`. -/
def utDeactivate (frame : Frame ι ε) (σ : State ι ε) : Option (State ι ε) := schedule frame σ

/-- `ut_activate`. A null handle is dereferenced. -/
def utActivate (handle : Option PUThread) (σ : State ι ε) : Option (State ι ε) :=
  match handle with
  | none => none
  | some t => some (insertReady t σ)

/-- `ut_create`, with the block that malloc returned for the descriptor. -/
def utCreate (block : ℕ) (σ : State ι ε) : Option (State ι ε) :=
  utActivate (some (.user block))
    { σ with
      descriptors := block :: σ.descriptors
      context := Function.update σ.context (.user block) .internalStart
      numberOfThreads := σ.numberOfThreads + 1 }

/-- `init_waitblock` in the frame of a thread. -/
def initWaitBlock (frame : PUThread) (σ : State ι ε) : State ι ε :=
  { σ with blockThread := Function.update σ.blockThread frame σ.runningThread }

/-- `init_sem_waitblock` in the frame of a thread. -/
def initSemWaitBlock (frame : PUThread) (units : ℤ) (σ : State ι ε) : State ι ε :=
  { initWaitBlock frame σ with blockUnits := Function.update σ.blockUnits frame units }

/-- Replace the units of one semaphore. -/
def setUnits (s : ι) (units : ℤ) (σ : State ι ε) : State ι ε :=
  { σ with units := Function.update σ.units s units }

/-- `sem_wait`. -/
def semWait (s : ι) (units : ℤ) (σ : State ι ε) : Option (State ι ε) :=
  match σ.runningThread with
  | none => none
  | some current =>
    if isListEmpty σ.memory (.semWaiters s) ∧ σ.units s ≥ units then
      some (setUnits s (wrapInt (σ.units s - units)) σ)
    else
      let σ := initSemWaitBlock current units σ
      utDeactivate (.semWait s units)
        { σ with memory := insertTailList σ.memory (.semWaiters s) (.block current) }

/-- The loop of `sem_post`. The entry is read through the head in every round. -/
def semPostLoop (s : ι) : ℕ → State ι ε → Option (State ι ε)
  | 0, _ => none
  | fuel + 1, σ =>
    if 0 < σ.units s ∧ (σ.memory (.semWaiters s)).flink ≠ .semWaiters s then
      match waitBlockOf (σ.memory (.semWaiters s)).flink with
      | none => none
      | some frame =>
        if σ.units s < σ.blockUnits frame then some σ
        else
          let σ := setUnits s (wrapInt (σ.units s - σ.blockUnits frame)) σ
          let σ := { σ with memory := (removeHeadList σ.memory (.semWaiters s)).2 }
          (utActivate (σ.blockThread frame) σ).bind (semPostLoop s fuel)
    else some σ

/-- Units after the addition and the clamp of `sem_post`. -/
def clampedUnits (s : ι) (units : ℤ) (σ : State ι ε) : ℤ :=
  if wrapInt (σ.units s + units) > σ.limit s then σ.limit s else wrapInt (σ.units s + units)

/-- `sem_post`. -/
def semPost (fuel : ℕ) (s : ι) (units : ℤ) (σ : State ι ε) : Option (State ι ε) :=
  semPostLoop s fuel (setUnits s (clampedUnits s units σ) σ)

/-- `event_wait`. -/
def eventWait (e : ε) (σ : State ι ε) : Option (State ι ε) :=
  if σ.signaled e = false then
    match σ.runningThread with
    | none => none
    | some current =>
      let σ := initWaitBlock current σ
      utDeactivate (.eventWait e)
        { σ with memory := insertTailList σ.memory (.eventWaiters e) (.block current) }
  else some σ

/-- The loop of `event_set` from one entry on. The next entry is read after the
thread was activated. -/
def eventSetLoop (e : ε) : ℕ → Node ι ε → State ι ε → Option (State ι ε)
  | 0, _, _ => none
  | fuel + 1, curr, σ =>
    if curr = .eventWaiters e then some σ
    else
      match waitBlockOf curr with
      | none => none
      | some frame =>
        (utActivate (σ.blockThread frame) σ).bind fun σ =>
          eventSetLoop e fuel (σ.memory curr).flink σ

/-- `event_set`. -/
def eventSet (fuel : ℕ) (e : ε) (σ : State ι ε) : Option (State ι ε) :=
  let σ := { σ with signaled := Function.update σ.signaled e true }
  eventSetLoop e fuel (σ.memory (.eventWaiters e)).flink σ

/-- The code that a call runs. -/
def perform (fuel : ℕ) : Call ι ε → State ι ε → Option (State ι ε)
  | .utCreate block => utCreate block
  | .utYield => utYield
  | .utExit => utExit
  | .semWait s units => semWait s units
  | .semPost s units => semPost fuel s units
  | .eventWait e => eventWait e
  | .eventSet e => eventSet fuel e

/-- malloc only returns blocks that are not in use. -/
def mallocOk (σ : State ι ε) : Call ι ε → Bool
  | .utCreate block => block ∉ σ.descriptors
  | _ => true

/-- One step of the whole program at a call boundary. -/
def next (fuel : ℕ) (σ : State ι ε) : Command ι ε → Option (State ι ε)
  | .create block =>
    if σ.runningThread = none ∧ block ∉ σ.descriptors then utCreate block σ else none
  | .enterRun => utRun σ
  | .leaveRun => if σ.runningThread = some .main then utRunReturn σ else none
  | .call c =>
    match σ.runningThread with
    | some (.user _) => if mallocOk σ c then perform fuel c σ else none
    | _ => none

/-- Whether a node is one of the list heads. -/
def isHead : Node ι ε → Bool
  | .readyQueue | .semWaiters _ | .eventWaiters _ => true
  | .link _ | .block _ => false

/-- The state after `ut_init`, `sem_init` and `event_init`, over a memory that
held anything before. -/
def initial (garbage : Memory (Node ι ε)) (units limit : ι → ℤ) : State ι ε where
  memory n := if isHead n then initListHead garbage n n else garbage n
  runningThread := none
  mainThread := none
  numberOfThreads := 0
  descriptors := []
  context := fun _ => .internalStart
  units := units
  limit := limit
  signaled := fun _ => false
  blockThread := fun _ => none
  blockUnits := fun _ => 0

/-- The runs of a program over the linked library. A step ends when some amount of
fuel is enough for its loop. -/
def linkedLibrary (garbage : Memory (Node ι ε)) (units limit : ι → ℤ) :
    System (State ι ε) (Command ι ε) where
  init σ := σ = initial garbage units limit
  step σ c τ := ∃ fuel, next fuel σ c = some τ

end Operations

end SistemasOperativos.LinkedUThread
