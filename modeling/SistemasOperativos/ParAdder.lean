import SistemasOperativos.TransitionRuns
import SistemasOperativos.ConditionMonitor
import SistemasOperativos.MachineInt

/-!
# The parallel sum over the thread pool

`par_adder` cuts an array into one range for each work item, submits the items
and waits on a latch until all of them have stored their partial sums. The
caller and the submitted items are interleaved statement by statement, in any
order. Pointers into the array are indexes, and a sum is an integer: a `long`
holds the sum of as many `int` elements as an `int` can count.
-/

namespace SistemasOperativos.ParAdder

open TransitionRuns ConditionMonitor

/-- `NPROCS`. -/
abbrev nprocs : ℕ := 4

/-- The loop of `seq_adder` from an index on, for a number of iterations. -/
def seqLoop (vals : List ℤ) (i : ℕ) (total : ℤ) : ℕ → ℤ
  | 0 => total
  | k + 1 => seqLoop vals (i + 1) (total + vals.getD i 0) k

/-- `seq_adder`. -/
def seqAdder (vals : List ℤ) : ℤ := seqLoop vals 0 0 vals.length

/-- `range_t`, without the pointer to the latch. -/
structure Range where
  start : ℕ
  /-- `end`. -/
  stop : ℕ
  count : ℤ
  deriving DecidableEq, Repr

/-- The condition variable of the latch. -/
inductive Cond
  | done
  deriving DecidableEq, Repr

/-- The caller of `par_adder` and the work items that it submits. -/
inductive Party
  | caller
  | item (i : Fin nprocs)
  deriving DecidableEq, Repr

/-- Where the caller stands, by its next statement. -/
inductive CallerPc
  /-- The loop that fills and submits the ranges. -/
  | filling (i curr : ℕ)
  /-- `pthread_mutex_lock` in `cdl_wait_for_all`. -/
  | locking
  /-- The test of the waiting loop. -/
  | checking
  /-- Inside `pthread_cond_wait`. -/
  | waiting
  /-- `pthread_mutex_unlock` in `cdl_wait_for_all`. -/
  | unlocking
  /-- The loop that adds the partial sums. -/
  | collecting (i : ℕ) (total : ℤ)
  | returned (total : ℤ)
  deriving DecidableEq, Repr

/-- Where a work item stands, by its next statement. -/
inductive ItemPc
  /-- Not submitted. -/
  | absent
  /-- Submitted. -/
  | queued
  /-- The loop of `oper_func`. -/
  | summing (curr : ℕ) (partialSum : ℤ)
  /-- `pthread_mutex_lock` in `cdl_signal_one`. -/
  | locking
  /-- The decrement, and the broadcast when it reaches zero. -/
  | decrementing
  /-- `pthread_mutex_unlock` in `cdl_signal_one`. -/
  | unlocking
  | finished
  deriving DecidableEq, Repr

/-- One call of `par_adder`. -/
structure State where
  /-- `ranges`. -/
  ranges : Fin nprocs → Range
  /-- `cdl.counter`. -/
  counter : ℤ
  /-- `cdl.lock` and `cdl.done`. -/
  monitor : Monitor Party Cond
  caller : CallerPc
  item : Fin nprocs → ItemPc

/-- The caller moves on. -/
def State.gotoCaller (s : State) (q : CallerPc) : State := { s with caller := q }

/-- A work item moves on. -/
def State.gotoItem (s : State) (i : Fin nprocs) (q : ItemPc) : State :=
  { s with item := Function.update s.item i q }

/-- The range that starts at `curr`, for an array of `nvals` elements. -/
def rangeFrom (nvals curr : ℕ) : Range :=
  let rangeSize := nvals / nprocs
  ⟨curr, if curr + rangeSize > nvals then nvals else curr + rangeSize, 0⟩

/-- The caller fills the next range and submits its item. -/
def State.submit (s : State) (nvals : ℕ) (i : Fin nprocs) (curr : ℕ) : State :=
  { s with
    ranges := Function.update s.ranges i (rangeFrom nvals curr)
    item := Function.update s.item i .queued
    caller := .filling (i + 1) (curr + nvals / nprocs) }

/-- One statement of the caller. -/
def State.runCaller (nvals : ℕ) (s : State) : Option State :=
  match s.caller with
  | .filling i curr =>
    if h : i < nprocs then some (s.submit nvals ⟨i, h⟩ curr) else some (s.gotoCaller .locking)
  | .locking => (s.monitor.lock .caller).map fun m => { s with monitor := m }.gotoCaller .checking
  | .checking =>
    if s.counter > 0 then
      (s.monitor.wait .done .caller).map fun m => { s with monitor := m }.gotoCaller .waiting
    else some (s.gotoCaller .unlocking)
  | .waiting =>
    (s.monitor.relock .done .caller).map fun m => { s with monitor := m }.gotoCaller .checking
  | .unlocking =>
    (s.monitor.unlock .caller).map fun m => { s with monitor := m }.gotoCaller (.collecting 0 0)
  | .collecting i total =>
    if h : i < nprocs then
      some (s.gotoCaller (.collecting (i + 1) (total + (s.ranges ⟨i, h⟩).count)))
    else some (s.gotoCaller (.returned total))
  | .returned _ => none

/-- An item stores its partial sum. -/
def State.store (s : State) (i : Fin nprocs) (partialSum : ℤ) : State :=
  { s with
    ranges := Function.update s.ranges i { s.ranges i with count := partialSum }
    item := Function.update s.item i .locking }

/-- An item counts the latch down. -/
def State.countDown (s : State) (i : Fin nprocs) : State :=
  { s with
    counter := s.counter - 1
    monitor := if s.counter - 1 = 0 then s.monitor.broadcast .done else s.monitor
    item := Function.update s.item i .unlocking }

/-- One statement of a work item. Reading outside the array is stuck. -/
def State.runItem (vals : List ℤ) (s : State) (i : Fin nprocs) : Option State :=
  match s.item i with
  | .absent => none
  | .queued => some (s.gotoItem i (.summing (s.ranges i).start 0))
  | .summing curr partialSum =>
    if curr < (s.ranges i).stop then
      vals[curr]?.map fun v => s.gotoItem i (.summing (curr + 1) (partialSum + v))
    else some (s.store i partialSum)
  | .locking =>
    (s.monitor.lock (.item i)).map fun m => { s with monitor := m }.gotoItem i .decrementing
  | .decrementing => some (s.countDown i)
  | .unlocking =>
    (s.monitor.unlock (.item i)).map fun m => { s with monitor := m }.gotoItem i .finished
  | .finished => none

/-- What happens next. -/
inductive Action
  /-- A party executes its next statement. -/
  | run (p : Party)
  /-- The caller wakes for no reason. -/
  | wake
  deriving DecidableEq, Repr

/-- One step of a call. -/
def State.next (vals : List ℤ) (s : State) : Action → Option State
  | .run .caller => s.runCaller vals.length
  | .run (.item i) => s.runItem vals i
  | .wake => (s.monitor.wake .done .caller).map fun m => { s with monitor := m }

/-- The start of a call, after `cdl_init`. The ranges are not set. -/
def Called (s : State) : Prop :=
  ∃ ranges, s = ⟨ranges, nprocs, .new, .filling 0 0, fun _ => .absent⟩

/-- All runs of `par_adder` on an array. -/
def parAdder (vals : List ℤ) : System State Action := ofNext Called (State.next vals)

end SistemasOperativos.ParAdder
