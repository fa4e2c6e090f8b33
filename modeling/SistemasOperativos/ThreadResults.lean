import SistemasOperativos.UThread

/-!
# User threads that return a result

The library of aula-04-29. A thread passes a value to `UtExit`, and other
threads ask for it. Who asks before the exit is linked in the thread's
descriptor and gets the value in its wait block; who asks afterwards reads it
from the descriptor, which is freed when the value has been taken. A step is
one call of the library, up to the next user code.

Descriptors are never reused here, so that a handle always tells which thread
was meant. A read of a freed descriptor is recorded, and what follows it is
undefined. The fields under the last heading of the state are instrumentation.
-/

namespace SistemasOperativos.ThreadResults

open TransitionRuns
open UThread (PUThread)

/-- `LONG`. -/
abbrev Long := BitVec 64

/-- `enum State`, and any other value that malloc left in a field of this type. -/
inductive ThreadState
  | ready
  | running
  | blocked
  | other (value : {bits : BitVec 32 // 2 < bits.toNat})
  deriving DecidableEq, Repr

/-- The part of `UTHREAD` that calls read and write after its creation. -/
structure Descriptor where
  state : ThreadState
  hasResult : Bool
  res : Long
  /-- Threads of the wait blocks linked in `res_waiters`, head first. -/
  resWaiters : List PUThread

/-- Where a suspended thread goes on when it is switched in, with the local
variable `NextThread` of `Schedule`. -/
inductive Frame
  | userCode
  | internalStart
  | utRun (next : PUThread)
  | utYield (next : PUThread)
  | utGetThreadResult (handle : ℕ) (next : PUThread)
  deriving DecidableEq

/-- A call of `UtGetThreadResult` that has returned: TRUE with a value, or FALSE. -/
structure Return where
  caller : PUThread
  handle : ℕ
  value : Option Long
  deriving DecidableEq

/-- The variables of the library, the descriptors and the frames. -/
structure State where
  /-- Threads linked in `ready_queue`, head first. -/
  readyQueue : List PUThread
  /-- `running_thread`, with none for NULL. -/
  runningThread : Option PUThread
  /-- `main_thread`, with none for NULL. -/
  mainThread : Option PUThread
  /-- `number_of_threads`. -/
  numberOfThreads : ℕ
  /-- Number of descriptors allocated so far. -/
  created : ℕ
  descriptor : PUThread → Descriptor
  /-- Descriptors given back. -/
  freed : ℕ → Bool
  frame : PUThread → Frame
  /-- `result` of the wait block in the thread's frame. -/
  result : PUThread → Long
  /-- Value that the thread passed to `UtExit`. -/
  exitValue : ℕ → Option Long
  /-- Another thread has called `UtGetThreadResult` for this one, or the value has been taken. -/
  asked : ℕ → Bool
  /-- Calls of `UtGetThreadResult` for another thread. -/
  calls : List (PUThread × ℕ)
  returns : List Return
  /-- How often a thread was linked in the descriptor of another one. -/
  blocks : PUThread → ℕ → ℕ
  /-- How often the exit of a thread made another one ready. -/
  activations : PUThread → ℕ → ℕ
  /-- Handles whose freed descriptor was read. -/
  freedReads : List ℕ
  /-- Threads whose freed descriptor had its `state` written. -/
  freedWrites : List PUThread

/-- Change a descriptor. -/
def State.setDescriptor (σ : State) (t : PUThread) (d : Descriptor) : State :=
  { σ with descriptor := Function.update σ.descriptor t d }

/-- Change the frame of a thread. -/
def State.setFrame (σ : State) (t : PUThread) (f : Frame) : State :=
  { σ with frame := Function.update σ.frame t f }

/-- The descriptor has been freed. -/
def State.gone (σ : State) : PUThread → Bool
  | .main => false
  | .user h => σ.freed h

/-- Write the field `state` of a descriptor. A write to a freed one is recorded instead. -/
def State.writeState (σ : State) (t : PUThread) (st : ThreadState) : State :=
  { σ with
    descriptor :=
      if σ.gone t then σ.descriptor
      else Function.update σ.descriptor t { σ.descriptor t with state := st }
    freedWrites := if σ.gone t then σ.freedWrites ++ [t] else σ.freedWrites }

/-- A call of `UtGetThreadResult` returns. -/
def State.giveBack (σ : State) (caller : PUThread) (h : ℕ) (value : Option Long) : State :=
  { σ with returns := σ.returns ++ [⟨caller, h, value⟩] }

/-- `free(thread)`. -/
def State.free (σ : State) (h : ℕ) : State := { σ with freed := Function.update σ.freed h true }

/-- `ExtractNextReadyThread`. -/
def extractNextReadyThread (σ : State) : Option PUThread × State :=
  match σ.readyQueue with
  | [] => (σ.mainThread, σ)
  | t :: rest => (some t, { σ with readyQueue := rest })

/-- What a thread does between being switched in and its next user code. -/
def resume (t : PUThread) (σ : State) : State :=
  match σ.frame t with
  | .userCode | .internalStart => σ.setFrame t .userCode
  | .utRun next | .utYield next => (σ.writeState next .running).setFrame t .userCode
  | .utGetThreadResult h next =>
    ((σ.writeState next .running).setFrame t .userCode).giveBack t h (some (σ.result t))

/-- Switch to a thread. -/
def switchIn (next : Option PUThread) (σ : State) : State :=
  match next with
  | none => { σ with runningThread := none }
  | some t => resume t { σ with runningThread := some t }

/-- `Schedule`. Without a running thread it would write through NULL. -/
def schedule (frame : PUThread → Frame) (σ : State) : Option State :=
  match σ.runningThread with
  | none => none
  | some current =>
    let next := extractNextReadyThread σ
    some (switchIn next.1
      ((next.2.writeState current .ready).setFrame current (frame (next.1.getD .main))))

/-- `UtActivate`. -/
def utActivate (t : PUThread) (σ : State) : State := { σ with readyQueue := σ.readyQueue ++ [t] }

/-- `UtCreate`, with what malloc left in the fields that are not initialised. -/
def utCreate (st : ThreadState) (res : Long) (σ : State) : State :=
  utActivate (.user σ.created)
    { σ.setDescriptor (.user σ.created) ⟨st, false, res, []⟩ with
      frame := Function.update σ.frame (.user σ.created) .internalStart
      created := σ.created + 1
      numberOfThreads := σ.numberOfThreads + 1 }

/-- `UtRun` up to its context switch, or to its early return. -/
def utRun (σ : State) : Option State :=
  if σ.runningThread = none then
    if σ.readyQueue = [] then some σ
    else schedule .utRun { σ with mainThread := some .main, runningThread := some .main }
  else none

/-- The rest of `UtRun`, after its two assertions. -/
def utRunReturn (σ : State) : Option State :=
  if σ.readyQueue = [] ∧ σ.numberOfThreads = 0 then
    some { σ with runningThread := none, mainThread := none }
  else none

/-- One round of the loop of `UtExit` for each wait block. -/
def serveWaiters (h : ℕ) (res : Long) : List PUThread → State → State
  | [], σ => σ
  | t :: rest, σ =>
    serveWaiters h res rest (utActivate t
      { σ.setDescriptor (.user h) { σ.descriptor (.user h) with resWaiters := rest } with
        result := Function.update σ.result t res
        activations := Function.update σ.activations t
          (Function.update (σ.activations t) h (σ.activations t h + 1)) })

/-- The part of `UtExit` before `internal_exit`. -/
def leaveResult (h : ℕ) (res : Long) (σ : State) : State :=
  let σ := { σ with
    numberOfThreads := σ.numberOfThreads - 1
    exitValue := Function.update σ.exitValue h (some res) }
  if (σ.descriptor (.user h)).resWaiters = [] then
    σ.setDescriptor (.user h) { σ.descriptor (.user h) with hasResult := true, res := res }
  else serveWaiters h res (σ.descriptor (.user h)).resWaiters σ

/-- `cleanup_thread`. -/
def cleanupThread (h : ℕ) (σ : State) : State :=
  if (σ.descriptor (.user h)).hasResult then σ else σ.free h

/-- `UtExit`. The cleanup runs before the next thread goes on. -/
def utExit (h : ℕ) (res : Long) (σ : State) : State :=
  let σ := leaveResult h res σ
  let next := extractNextReadyThread σ
  switchIn next.1 (cleanupThread h next.2)

/-- `UtYield`. -/
def utYield (σ : State) : Option State :=
  match σ.readyQueue, σ.runningThread with
  | [], _ => some σ
  | _ :: _, none => none
  | _ :: _, some current => schedule .utYield (utActivate current σ)

/-- `UtTryGetThreadResult` for a thread that is not the caller and whose
descriptor is there: the value, if it was taken, and the state afterwards. -/
def takeResult (h : ℕ) (σ : State) : Option Long × State :=
  if (σ.descriptor (.user h)).hasResult then
    (some (σ.descriptor (.user h)).res,
      { σ.free h with asked := Function.update σ.asked h true })
  else (none, σ)

/-- A freed descriptor is read. -/
def State.readFreed (σ : State) (h : ℕ) : State := { σ with freedReads := σ.freedReads ++ [h] }

/-- `UtTryGetThreadResult`. -/
def utTryGetThreadResult (h : ℕ) (σ : State) : State :=
  if σ.runningThread = some (.user h) then σ
  else if σ.freed h then σ.readFreed h
  else (takeResult h σ).2

/-- The caller's wait block is linked in the descriptor of the thread. -/
def linkWaiter (caller : PUThread) (h : ℕ) (σ : State) : State :=
  { σ.setDescriptor (.user h) { σ.descriptor (.user h) with
      resWaiters := (σ.descriptor (.user h)).resWaiters ++ [caller] } with
    asked := Function.update σ.asked h true
    blocks := Function.update σ.blocks caller
      (Function.update (σ.blocks caller) h (σ.blocks caller h + 1)) }

/-- `UtGetThreadResult`. `UtSelf` is NULL when the main thread calls. -/
def utGetThreadResult (h : ℕ) (σ : State) : Option State :=
  let caller := σ.runningThread.getD .main
  if caller = .user h then some (σ.giveBack caller h none)
  else
    let σ := { σ with calls := σ.calls ++ [(caller, h)] }
    if σ.freed h then some (σ.readFreed h)
    else
      match takeResult h σ with
      | (some value, σ) => some (σ.giveBack caller h (some value))
      | (none, σ) => schedule (.utGetThreadResult h) (linkWaiter caller h σ)

/-- What may happen next: the main thread enters or leaves `UtRun`, or the
running user code makes a call. -/
inductive Command
  | enterRun
  | leaveRun
  | create (st : ThreadState) (res : Long)
  | yield
  | exit (res : Long)
  | getResult (handle : ℕ)
  | tryGetResult (handle : ℕ)
  deriving DecidableEq

/-- One step. The main thread runs user code outside of `UtRun`. -/
def next (σ : State) : Command → Option State
  | .enterRun => utRun σ
  | .leaveRun => if σ.runningThread = some .main then utRunReturn σ else none
  | .create st res => if σ.runningThread = some .main then none else some (utCreate st res σ)
  | .yield =>
    match σ.runningThread with
    | some (.user _) => utYield σ
    | _ => none
  | .exit res =>
    match σ.runningThread with
    | some (.user h) => some (utExit h res σ)
    | _ => none
  | .getResult h =>
    if σ.runningThread = some .main ∨ σ.created ≤ h then none else utGetThreadResult h σ
  | .tryGetResult h =>
    if σ.runningThread = some .main ∨ σ.created ≤ h then none else some (utTryGetThreadResult h σ)

/-- The state after `UtInit`. -/
def initial : State where
  readyQueue := []
  runningThread := none
  mainThread := none
  numberOfThreads := 0
  created := 0
  descriptor _ := ⟨.ready, false, 0, []⟩
  freed _ := false
  frame _ := .userCode
  result _ := 0
  exitValue _ := none
  asked _ := false
  calls := []
  returns := []
  blocks _ _ := 0
  activations _ _ := 0
  freedReads := []
  freedWrites := []

/-- All runs of programs over the library. -/
def library : System State Command := ofNext (fun σ => σ = initial) next

end SistemasOperativos.ThreadResults
