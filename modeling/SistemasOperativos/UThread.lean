import Mathlib.Algebra.Ring.Int.Defs
import Mathlib.Algebra.Ring.Nat
import Mathlib.Data.List.Basic
import Mathlib.Logic.Function.Basic
import SistemasOperativos.TransitionRuns

/-!
# The cooperative user-thread library

The scheduler of uthread.c with the semaphores of semaphore.c and the events
of event.c. The intrusive circular lists are sequences of descriptors and of
wait blocks. Every call runs to its end, or to its context switch, without
interruption; a suspended caller returns when it is dispatched again, with
nothing left to do in the library, so one step of the model is one call.

The log is instrumentation: it records appends, dispatches and grants in
order, and no function of the library reads it.
-/

namespace SistemasOperativos.UThread

open TransitionRuns

/-- A pointer to a descriptor: the proxy in the frame of `ut_run`, or a block
returned by malloc. -/
inductive PUThread where
  | main
  | user (block : ℕ)
  deriving DecidableEq

/-- Where a suspended thread goes on when it is switched in again. -/
inductive Frame (ι ε : Type) where
  | internalStart
  | utRun
  | utYield
  | semWait (sem : ι) (units : ℤ)
  | eventWait (event : ε)
  deriving DecidableEq

/-- A wait block in a semaphore's list: the blocked thread and its request. -/
structure SemWaitBlock where
  /-- The thread that waits, from `header.thread`. -/
  thread : PUThread
  /-- The number of units it asked for. -/
  units : ℤ
  deriving DecidableEq

/-- A semaphore, with its wait list in queue order. -/
structure Semaphore where
  /-- Wait blocks linked in `waiters`, head first. -/
  waiters : List SemWaitBlock
  /-- Units available now. -/
  units : ℤ
  /-- Upper bound of the units. -/
  limit : ℤ

/-- An event, with the threads of the wait blocks linked in it. -/
structure Event where
  /-- Set by `event_set` and never cleared. -/
  signaled : Bool
  /-- Threads of the wait blocks linked in `waiters`, head first. -/
  waiters : List PUThread

/-- The call on behalf of which a thread was put in the ready queue. -/
inductive Cause (ι ε : Type) where
  | created
  | yielded
  | posted (sem : ι)
  | signaled (event : ε)
  deriving DecidableEq

/-- One recorded occurrence. The flag of `appended` tells whether the thread
was allocated, not running and not yet in the ready queue at that moment. -/
inductive Entry (ι ε : Type) where
  | appended (thread : PUThread) (cause : Cause ι ε) (clean : Bool)
  | dispatched (thread : PUThread)
  | called (sem : ι) (thread : PUThread) (units : ℤ)
  | taken (sem : ι) (thread : PUThread) (units : ℤ)
  | blocked (sem : ι) (thread : PUThread) (units : ℤ)
  | released (sem : ι) (thread : PUThread) (units : ℤ)
  | posted (sem : ι) (thread : Option PUThread) (units credited : ℤ)
  | waited (event : ε) (thread : PUThread)
  deriving DecidableEq

/-- The library's static variables, the allocated descriptors, the saved
frames, the synchronizers and the log. -/
structure State (ι ε : Type) where
  /-- Threads linked in `ready_queue`, head first. -/
  readyQueue : List PUThread
  /-- `running_thread`, with none for NULL. -/
  runningThread : Option PUThread
  /-- `main_thread`, with none for NULL. -/
  mainThread : Option PUThread
  /-- `number_of_threads`. -/
  numberOfThreads : ℕ
  /-- Descriptors between their malloc and their free. -/
  descriptors : List ℕ
  /-- Saved context of each suspended thread. -/
  context : PUThread → Frame ι ε
  /-- The semaphores. -/
  sems : ι → Semaphore
  /-- The events. -/
  events : ε → Event
  /-- Instrumentation, oldest entry first. -/
  log : List (Entry ι ε)

/-- Largest value of the C type `int`. -/
def intMax : ℤ := 2 ^ 31 - 1

/-- Two's complement wrapping of a 32-bit `int` result. -/
def wrapInt (x : ℤ) : ℤ := Int.bmod x (2 ^ 32)

/-- Results within `int` are not changed by wrapping. -/
theorem wrapInt_eq {x : ℤ} (hlo : 0 ≤ x) (hhi : x ≤ intMax) : wrapInt x = x := by
  unfold intMax at hhi
  unfold wrapInt
  exact Int.bmod_eq_of_le (by omega) (by omega)

section Operations

variable {ι ε : Type} [DecidableEq ι] [DecidableEq ε]

/-- Add one entry to the log. -/
def record (e : Entry ι ε) (σ : State ι ε) : State ι ε := { σ with log := σ.log ++ [e] }

/-- Whether a thread may be linked in the ready queue without corrupting it. -/
def appendable (σ : State ι ε) (t : PUThread) : Bool :=
  match t with
  | .main => false
  | .user b => b ∈ σ.descriptors ∧ t ∉ σ.readyQueue ∧ σ.runningThread ≠ some t

/-- `insert_tail_list(&ready_queue, &thread->link)`. -/
def insertReady (cause : Cause ι ε) (t : PUThread) (σ : State ι ε) : State ι ε :=
  { σ with
    readyQueue := σ.readyQueue ++ [t]
    log := σ.log ++ [.appended t cause (appendable σ t)] }

/-- Head of the ready queue, removed; the main thread when the queue is empty. -/
def extractNextThread (σ : State ι ε) : Option PUThread × State ι ε :=
  match σ.readyQueue with
  | [] => (σ.mainThread, σ)
  | t :: rest => (some t, record (.dispatched t) { σ with readyQueue := rest })

/-- Save the running thread's frame and make the next thread the running one. -/
def contextSwitch (frame : Frame ι ε) (next : Option PUThread) (σ : State ι ε) : State ι ε :=
  { σ with
    context := match σ.runningThread with
      | none => σ.context
      | some current => Function.update σ.context current frame
    runningThread := next }

/-- Switch to the next thread; the frame tells which call suspends the caller. -/
def schedule (frame : Frame ι ε) (σ : State ι ε) : State ι ε :=
  contextSwitch frame (extractNextThread σ).1 (extractNextThread σ).2

/-- `ut_init`. -/
def utInit (σ : State ι ε) : State ι ε := { σ with readyQueue := [] }

/-- `ut_run` up to its context switch, or to its early return. It is refused
where its first assertion fails. -/
def utRun (σ : State ι ε) : Option (State ι ε) :=
  if σ.runningThread = none then
    if σ.readyQueue = [] then some σ
    else some (schedule .utRun
      { σ with mainThread := some .main, runningThread := some .main })
  else none

/-- The rest of `ut_run`, after the main thread is switched in again. It is
refused where one of the two closing assertions fails. -/
def utRunReturn (σ : State ι ε) : Option (State ι ε) :=
  if σ.readyQueue = [] ∧ σ.numberOfThreads = 0 then
    some { σ with runningThread := none, mainThread := none }
  else none

/-- Free the descriptor and the stack of a thread. -/
def cleanupThread (t : PUThread) (σ : State ι ε) : State ι ε :=
  match t with
  | .main => σ
  | .user b => { σ with descriptors := σ.descriptors.erase b }

/-- Make the next thread the running one and free the current thread. -/
def internalExit (current : PUThread) (next : Option PUThread) (σ : State ι ε) : State ι ε :=
  cleanupThread current { σ with runningThread := next }

/-- `ut_exit`. -/
def utExit (σ : State ι ε) : State ι ε :=
  let σ := { σ with numberOfThreads := σ.numberOfThreads - 1 }
  match σ.runningThread with
  | none => σ
  | some current => internalExit current (extractNextThread σ).1 (extractNextThread σ).2

/-- `ut_yield`. -/
def utYield (σ : State ι ε) : State ι ε :=
  match σ.readyQueue, σ.runningThread with
  | [], _ => σ
  | _ :: _, none => σ
  | _ :: _, some current => schedule .utYield (insertReady .yielded current σ)

/-- `ut_deactivate`. -/
def utDeactivate (frame : Frame ι ε) (σ : State ι ε) : State ι ε := schedule frame σ

/-- `ut_activate`. -/
def utActivate (cause : Cause ι ε) (t : PUThread) (σ : State ι ε) : State ι ε :=
  insertReady cause t σ

/-- `ut_create`, with the block that malloc returned for the descriptor. -/
def utCreate (block : ℕ) (σ : State ι ε) : State ι ε :=
  utActivate .created (.user block)
    { σ with
      descriptors := block :: σ.descriptors
      context := Function.update σ.context (.user block) .internalStart
      numberOfThreads := σ.numberOfThreads + 1 }

/-- `sem_init`. -/
def semInit (units limit : ℤ) : Semaphore := ⟨[], units, limit⟩

/-- Replace one semaphore. -/
def setSem (s : ι) (sem : Semaphore) (σ : State ι ε) : State ι ε :=
  { σ with sems := Function.update σ.sems s sem }

/-- `sem_wait`. Without a running thread `ut_self` would be NULL. -/
def semWait (s : ι) (units : ℤ) (σ : State ι ε) : State ι ε :=
  match σ.runningThread with
  | none => σ
  | some current =>
    let sem := σ.sems s
    let σ := record (.called s current units) σ
    if sem.waiters = [] ∧ sem.units ≥ units then
      record (.taken s current units) (setSem s { sem with units := wrapInt (sem.units - units) } σ)
    else
      utDeactivate (.semWait s units) (record (.blocked s current units)
        (setSem s { sem with waiters := sem.waiters ++ [⟨current, units⟩] } σ))

/-- The loop of `sem_post`, along the wait blocks that are linked when it starts. -/
def semPostLoop (s : ι) : List SemWaitBlock → State ι ε → State ι ε
  | [], σ => σ
  | block :: rest, σ =>
    if 0 < (σ.sems s).units then
      if (σ.sems s).units < block.units then σ
      else
        semPostLoop s rest (utActivate (.posted s) block.thread
          (record (.released s block.thread block.units)
            (setSem s { σ.sems s with
              waiters := rest
              units := wrapInt ((σ.sems s).units - block.units) } σ)))
    else σ

/-- Units after the addition and the clamp of `sem_post`. -/
def clampedUnits (sem : Semaphore) (units : ℤ) : ℤ :=
  if wrapInt (sem.units + units) > sem.limit then sem.limit else wrapInt (sem.units + units)

/-- `sem_post`. -/
def semPost (s : ι) (units : ℤ) (σ : State ι ε) : State ι ε :=
  let sem := σ.sems s
  semPostLoop s sem.waiters
    (record (.posted s σ.runningThread units (clampedUnits sem units - sem.units))
      (setSem s { sem with units := clampedUnits sem units } σ))

/-- `event_init`. -/
def eventInit : Event := ⟨false, []⟩

/-- Replace one event. -/
def setEvent (e : ε) (event : Event) (σ : State ι ε) : State ι ε :=
  { σ with events := Function.update σ.events e event }

/-- `event_wait`. -/
def eventWait (e : ε) (σ : State ι ε) : State ι ε :=
  match σ.runningThread with
  | none => σ
  | some current =>
    let event := σ.events e
    if event.signaled = false then
      utDeactivate (.eventWait e) (record (.waited e current)
        (setEvent e { event with waiters := event.waiters ++ [current] } σ))
    else σ

/-- `event_set`. The loop only walks along the list: no wait block is removed. -/
def eventSet (e : ε) (σ : State ι ε) : State ι ε :=
  let event := σ.events e
  event.waiters.foldl (fun σ t => utActivate (.signaled e) t σ)
    (setEvent e { event with signaled := true } σ)

/-- The calls that a user thread makes. A return from its function is `utExit`. -/
inductive Call (ι ε : Type) where
  | utCreate (block : ℕ)
  | utYield
  | utExit
  | semWait (sem : ι) (units : ℤ)
  | semPost (sem : ι) (units : ℤ)
  | eventWait (event : ε)
  | eventSet (event : ε)
  deriving DecidableEq

/-- The code that a call runs. -/
def perform : Call ι ε → State ι ε → State ι ε
  | .utCreate block => utCreate block
  | .utYield => utYield
  | .utExit => utExit
  | .semWait s units => semWait s units
  | .semPost s units => semPost s units
  | .eventWait e => eventWait e
  | .eventSet e => eventSet e

/-- What may happen next: the main thread creates threads or enters and leaves
`ut_run`, or the running user thread makes a call. -/
inductive Command (ι ε : Type) where
  | create (block : ℕ)
  | enterRun
  | leaveRun
  | call (c : Call ι ε)
  deriving DecidableEq

/-- malloc only returns blocks that are not in use. -/
def mallocOk (σ : State ι ε) : Call ι ε → Bool
  | .utCreate block => block ∉ σ.descriptors
  | _ => true

/-- One step of the whole program at a call boundary. -/
def next (σ : State ι ε) : Command ι ε → Option (State ι ε)
  | .create block =>
    if σ.runningThread = none ∧ block ∉ σ.descriptors then some (utCreate block σ) else none
  | .enterRun => utRun σ
  | .leaveRun => if σ.runningThread = some .main then utRunReturn σ else none
  | .call c =>
    match σ.runningThread with
    | some (.user _) => if mallocOk σ c then some (perform c σ) else none
    | _ => none

/-- The state after `ut_init`, before any thread is created. -/
def initial (sems : ι → Semaphore) : State ι ε :=
  utInit
    { readyQueue := []
      runningThread := none
      mainThread := none
      numberOfThreads := 0
      descriptors := []
      context := fun _ => .internalStart
      sems := sems
      events := fun _ => eventInit
      log := [] }

/-- Semaphores set up by `sem_init` with `0 ≤ units ≤ limit`. -/
def SemsReady (sems : ι → Semaphore) : Prop :=
  ∀ s, ∃ units limit, sems s = semInit units limit ∧
    0 ≤ units ∧ units ≤ limit ∧ limit ≤ intMax

omit [DecidableEq ι] [DecidableEq ε] in
/-- Nobody waits on a semaphore that `sem_init` has set up. -/
theorem SemsReady.waiters_eq {sems : ι → Semaphore} (h : SemsReady sems) (s : ι) :
    (sems s).waiters = [] := by
  obtain ⟨units, limit, hs, -⟩ := h s
  rw [hs, semInit]

/-- The runs, from `ut_init` on, of a program with the given semaphores. -/
def library (sems : ι → Semaphore) : System (State ι ε) (Command ι ε) :=
  ofNext (fun σ => σ = initial sems) next

end Operations

section Fields

variable {ι ε : Type} (σ : State ι ε)

/-- Extraction takes the head away and changes nothing else but the log. -/
@[simp] theorem extractNextThread_fields :
    (extractNextThread σ).2.readyQueue = σ.readyQueue.tail ∧
    (extractNextThread σ).2.runningThread = σ.runningThread ∧
    (extractNextThread σ).2.mainThread = σ.mainThread ∧
    (extractNextThread σ).2.numberOfThreads = σ.numberOfThreads ∧
    (extractNextThread σ).2.descriptors = σ.descriptors ∧
    (extractNextThread σ).2.context = σ.context ∧
    (extractNextThread σ).2.sems = σ.sems ∧
    (extractNextThread σ).2.events = σ.events := by
  unfold extractNextThread
  cases h : σ.readyQueue <;> simp [record, h]

/-- The next thread is the head of the ready queue, or else the main thread. -/
theorem extractNextThread_fst :
    (extractNextThread σ).1 = σ.readyQueue.head?.or σ.mainThread := by
  unfold extractNextThread
  cases σ.readyQueue <;> simp

/-- Extraction logs the dispatch of the head, if there is one. -/
theorem extractNextThread_log :
    (extractNextThread σ).2.log = σ.log ++ σ.readyQueue.head?.toList.map Entry.dispatched := by
  unfold extractNextThread
  cases h : σ.readyQueue <;> simp [record]

/-- A context switch leaves the lists, the counter and the synchronizers alone. -/
@[simp] theorem schedule_fields (frame : Frame ι ε) :
    (schedule frame σ).readyQueue = σ.readyQueue.tail ∧
    (schedule frame σ).runningThread = (extractNextThread σ).1 ∧
    (schedule frame σ).mainThread = σ.mainThread ∧
    (schedule frame σ).numberOfThreads = σ.numberOfThreads ∧
    (schedule frame σ).descriptors = σ.descriptors ∧
    (schedule frame σ).sems = σ.sems ∧
    (schedule frame σ).events = σ.events ∧
    (schedule frame σ).log = (extractNextThread σ).2.log := by
  obtain ⟨hready, -, hmain, hnumber, hdescriptors, -, hsems, hevents⟩ := extractNextThread_fields σ
  exact ⟨hready, rfl, hmain, hnumber, hdescriptors, hsems, hevents, rfl⟩

/-- A context switch saves the frame of the thread that was running. -/
theorem schedule_context {frame : Frame ι ε} {r : PUThread} (hr : σ.runningThread = some r) :
    (schedule frame σ).context = Function.update σ.context r frame := by
  simp [schedule, contextSwitch, hr]

/-- A thread that ends gives its descriptor back and leaves the synchronizers
and the saved frames alone. -/
theorem utExit_fields {b : ℕ} (hr : σ.runningThread = some (.user b)) :
    (utExit σ).readyQueue = σ.readyQueue.tail ∧
    (utExit σ).runningThread = (extractNextThread σ).1 ∧
    (utExit σ).mainThread = σ.mainThread ∧
    (utExit σ).numberOfThreads = σ.numberOfThreads - 1 ∧
    (utExit σ).descriptors = σ.descriptors.erase b ∧
    (utExit σ).context = σ.context ∧
    (utExit σ).sems = σ.sems ∧
    (utExit σ).events = σ.events ∧
    (utExit σ).log = (extractNextThread σ).2.log := by
  simp only [utExit, hr, internalExit, cleanupThread]
  refine ⟨by simp, ?_, by simp, by simp, by simp, by simp, by simp, by simp, ?_⟩
  · rw [extractNextThread_fst, extractNextThread_fst]
  · rw [extractNextThread_log, extractNextThread_log]

/-- The loop of `sem_post` only wakes threads and touches one semaphore. -/
theorem semPostLoop_fields [DecidableEq ι] (s : ι) (blocks : List SemWaitBlock) :
    (semPostLoop s blocks σ).runningThread = σ.runningThread ∧
    (semPostLoop s blocks σ).mainThread = σ.mainThread ∧
    (semPostLoop s blocks σ).descriptors = σ.descriptors ∧
    (semPostLoop s blocks σ).context = σ.context ∧
    (semPostLoop s blocks σ).events = σ.events ∧
    ∀ s', s' ≠ s → (semPostLoop s blocks σ).sems s' = σ.sems s' := by
  induction blocks generalizing σ with
  | nil => simp [semPostLoop]
  | cons block rest ih =>
    rw [semPostLoop]
    split
    · split
      · simp
      · have h := ih (utActivate (.posted s) block.thread
          (record (.released s block.thread block.units)
            (setSem s { σ.sems s with
              waiters := rest
              units := wrapInt ((σ.sems s).units - block.units) } σ)))
        obtain ⟨hr, hm, hd, hc, he, hs⟩ := h
        refine ⟨hr, hm, hd, hc, he, fun s' hne => (hs s' hne).trans ?_⟩
        simp [utActivate, insertReady, record, setSem, hne]
    · simp

/-- What `sem_post` leaves alone. -/
theorem semPost_fields [DecidableEq ι] (s : ι) (units : ℤ) :
    (semPost s units σ).runningThread = σ.runningThread ∧
    (semPost s units σ).mainThread = σ.mainThread ∧
    (semPost s units σ).descriptors = σ.descriptors ∧
    (semPost s units σ).context = σ.context ∧
    (semPost s units σ).events = σ.events ∧
    ∀ s', s' ≠ s → (semPost s units σ).sems s' = σ.sems s' := by
  obtain ⟨hr, hm, hd, hc, he, hs⟩ := semPostLoop_fields
    (record (.posted s σ.runningThread units (clampedUnits (σ.sems s) units - (σ.sems s).units))
      (setSem s { σ.sems s with units := clampedUnits (σ.sems s) units } σ)) s (σ.sems s).waiters
  refine ⟨hr, hm, hd, hc, he, fun s' hne => (hs s' hne).trans ?_⟩
  simp [record, setSem, hne]

/-- The loop of `sem_post` serves a prefix of the list, in order. -/
theorem semPostLoop_served [DecidableEq ι] (s : ι) (blocks : List SemWaitBlock)
    (hw : (σ.sems s).waiters = blocks) :
    ∃ served, blocks = served ++ ((semPostLoop s blocks σ).sems s).waiters ∧
      (semPostLoop s blocks σ).readyQueue =
        σ.readyQueue ++ served.map SemWaitBlock.thread := by
  induction blocks generalizing σ with
  | nil => exact ⟨[], by simp [semPostLoop, hw], by simp [semPostLoop]⟩
  | cons block rest ih =>
    rw [semPostLoop]
    split
    · split
      · exact ⟨[], by simp [hw], by simp⟩
      · obtain ⟨served, hrest, hready⟩ := ih (utActivate (.posted s) block.thread
          (record (.released s block.thread block.units)
            (setSem s { σ.sems s with
              waiters := rest
              units := wrapInt ((σ.sems s).units - block.units) } σ)))
          (by simp [utActivate, insertReady, record, setSem])
        refine ⟨block :: served, by rw [List.cons_append, ← hrest], ?_⟩
        rw [hready]
        simp [utActivate, insertReady, record, setSem]
    · exact ⟨[], by simp [hw], by simp⟩

/-- `sem_post` unlinks a prefix of the wait list and readies its threads. -/
theorem semPost_served [DecidableEq ι] (s : ι) (units : ℤ) :
    ∃ served, (σ.sems s).waiters = served ++ ((semPost s units σ).sems s).waiters ∧
      (semPost s units σ).readyQueue = σ.readyQueue ++ served.map SemWaitBlock.thread :=
  semPostLoop_served
    (record (.posted s σ.runningThread units (clampedUnits (σ.sems s) units - (σ.sems s).units))
      (setSem s { σ.sems s with units := clampedUnits (σ.sems s) units } σ)) s _
    (by simp [record, setSem])

end Fields

section Steps

variable {ι ε : Type} [DecidableEq ι] [DecidableEq ε] {σ σ' : State ι ε}

/-- The main thread creates outside of `ut_run`, in a block that is not in use. -/
theorem next_create {b : ℕ} (hstep : next σ (.create b) = some σ') :
    σ.runningThread = none ∧ b ∉ σ.descriptors ∧ σ' = utCreate b σ := by
  simp only [next] at hstep
  split at hstep
  next hc =>
    cases hstep
    exact ⟨hc.1, hc.2, rfl⟩
  next => cases hstep

/-- `ut_run` returns at once when no thread is ready, and else switches. -/
theorem next_enterRun (hstep : next σ .enterRun = some σ') :
    σ.runningThread = none ∧ (σ' = σ ∨ σ' = schedule .utRun
      { σ with mainThread := some .main, runningThread := some .main }) := by
  simp only [next, utRun] at hstep
  split at hstep
  next hr =>
    split at hstep <;> cases hstep
    · exact ⟨hr, .inl rfl⟩
    · exact ⟨hr, .inr rfl⟩
  next => cases hstep

/-- `ut_run` ends in the main thread, with no thread left. -/
theorem next_leaveRun (hstep : next σ .leaveRun = some σ') :
    σ.runningThread = some .main ∧ σ.readyQueue = [] ∧ σ.numberOfThreads = 0 ∧
      σ' = { σ with runningThread := none, mainThread := none } := by
  simp only [next, utRunReturn] at hstep
  split at hstep
  next hr =>
    split at hstep
    next hend =>
      cases hstep
      exact ⟨hr, hend.1, hend.2, rfl⟩
    next => cases hstep
  next => cases hstep

/-- A user thread that calls runs the code of the call. -/
theorem next_call {c : Call ι ε} (hstep : next σ (.call c) = some σ') :
    ∃ b, σ.runningThread = some (.user b) ∧ mallocOk σ c = true ∧ σ' = perform c σ := by
  simp only [next] at hstep
  split at hstep
  next b hr =>
    split at hstep <;> cases hstep
    exact ⟨b, hr, by assumption, rfl⟩
  next => cases hstep

omit [DecidableEq ι] [DecidableEq ε] in
/-- A running thread yields to the head of the ready queue, if there is one. -/
theorem utYield_eq {t : PUThread} (hr : σ.runningThread = some t) :
    utYield σ = if σ.readyQueue = [] then σ else schedule .utYield (insertReady .yielded t σ) := by
  unfold utYield
  cases hq : σ.readyQueue with
  | nil => rw [if_pos rfl]
  | cons u rest => rw [hr, if_neg (List.cons_ne_nil u rest)]

end Steps

end SistemasOperativos.UThread
