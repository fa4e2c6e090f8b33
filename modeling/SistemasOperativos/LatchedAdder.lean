import SistemasOperativos.CountdownLatch
import SistemasOperativos.ParAdderSum

/-!
# The parallel sum and the latch in its frame

`par_adder` for any number of work items. The latch and the ranges live in its
frame, so the call also takes the latch down and returns. The decrement and the
broadcast of `cdl_signal_one` are statements of their own, so that the caller
may wake for no reason and look at the counter between them.
-/

namespace SistemasOperativos.LatchedAdder

open TransitionRuns ConditionMonitor
open ParAdder (Range)
open CountdownLatch (Party Cond)

variable {n : ℕ}

/-- Where the caller stands, by its next statement. -/
inductive CallerPc
  /-- The loop that fills and submits the ranges. -/
  | filling (i curr : ℕ)
  /-- `pthread_mutex_lock` in `cdl_wait_for_all`. -/
  | locking
  /-- The test of the waiting loop. -/
  | checking
  /-- Inside `pthread_cond_wait`. -/
  | waiting
  /-- `pthread_mutex_unlock` in `cdl_wait_for_all`. -/
  | unlocking
  /-- The loop that adds the partial sums. -/
  | collecting (i : ℕ) (total : ℤ)
  /-- `pthread_mutex_destroy` in `cdl_destroy`. -/
  | mutexDestroying (total : ℤ)
  /-- `pthread_cond_destroy` in `cdl_destroy`. -/
  | condDestroying (total : ℤ)
  /-- The frame is gone. -/
  | returned (total : ℤ)
  deriving DecidableEq, Repr

/-- Where a work item stands, by its next statement. -/
inductive ItemPc
  /-- Not submitted. -/
  | absent
  /-- Submitted. -/
  | queued
  /-- The loop of `oper_func`. -/
  | summing (curr : ℕ) (partialSum : ℤ)
  /-- `range->count = partial`. -/
  | storing (partialSum : ℤ)
  /-- `pthread_mutex_lock` in `cdl_signal_one`, on the latch that the range names. -/
  | locking
  /-- The decrement and its test. -/
  | decrementing
  /-- `pthread_cond_broadcast`. -/
  | broadcasting
  /-- `pthread_mutex_unlock` in `cdl_signal_one`. -/
  | unlocking
  /-- Back in the worker. -/
  | finished
  deriving DecidableEq, Repr

/-- One call of `par_adder` that submits `n` items. -/
structure State (n : ℕ) where
  /-- `ranges`. -/
  ranges : Fin n → Range
  /-- `cdl.counter`. -/
  counter : ℤ
  /-- `cdl.lock` and `cdl.done`. -/
  monitor : Monitor (Party Unit (Fin n)) Cond
  caller : CallerPc
  item : Fin n → ItemPc

/-- A work item moves on. -/
def State.gotoItem (s : State n) (i : Fin n) (q : ItemPc) : State n :=
  { s with item := Function.update s.item i q }

/-- The range that starts at `curr`, for an array of `nvals` elements. -/
def rangeFrom (n nvals curr : ℕ) : Range :=
  let rangeSize := nvals / n
  ⟨curr, if curr + rangeSize > nvals then nvals else curr + rangeSize, 0⟩

/-- The caller fills the next range and submits its item. -/
def State.submit (s : State n) (nvals : ℕ) (i : Fin n) (curr : ℕ) : State n :=
  { s with
    ranges := Function.update s.ranges i (rangeFrom n nvals curr)
    item := Function.update s.item i .queued
    caller := .filling (i + 1) (curr + nvals / n) }

/-- One statement of the caller. -/
def State.runCaller (nvals : ℕ) (s : State n) : Option (State n) :=
  match s.caller with
  | .filling i curr =>
    if h : i < n then some (s.submit nvals ⟨i, h⟩ curr) else some { s with caller := .locking }
  | .locking => (s.monitor.lock (.waiter ())).map fun m => { s with monitor := m, caller := .checking }
  | .checking =>
    if s.counter > 0 then
      (s.monitor.wait .done (.waiter ())).map fun m => { s with monitor := m, caller := .waiting }
    else some { s with caller := .unlocking }
  | .waiting =>
    (s.monitor.relock .done (.waiter ())).map fun m => { s with monitor := m, caller := .checking }
  | .unlocking =>
    (s.monitor.unlock (.waiter ())).map fun m => { s with monitor := m, caller := .collecting 0 0 }
  | .collecting i total =>
    if h : i < n then
      some { s with caller := .collecting (i + 1) (total + (s.ranges ⟨i, h⟩).count) }
    else some { s with caller := .mutexDestroying total }
  | .mutexDestroying total => some { s with caller := .condDestroying total }
  | .condDestroying total => some { s with caller := .returned total }
  | .returned _ => none

/-- One statement of a work item. Reading outside the array is stuck. -/
def State.runItem (vals : List ℤ) (s : State n) (i : Fin n) : Option (State n) :=
  match s.item i with
  | .absent => none
  | .queued => some (s.gotoItem i (.summing (s.ranges i).start 0))
  | .summing curr partialSum =>
    if curr < (s.ranges i).stop then
      vals[curr]?.map fun v => s.gotoItem i (.summing (curr + 1) (partialSum + v))
    else some (s.gotoItem i (.storing partialSum))
  | .storing partialSum =>
    some ({ s with
      ranges := Function.update s.ranges i { s.ranges i with count := partialSum } }.gotoItem i
        .locking)
  | .locking =>
    (s.monitor.lock (.signaller i)).map fun m => { s with monitor := m }.gotoItem i .decrementing
  | .decrementing =>
    some ({ s with counter := s.counter - 1 }.gotoItem i
      (if s.counter - 1 = 0 then .broadcasting else .unlocking))
  | .broadcasting => some ({ s with monitor := s.monitor.broadcast .done }.gotoItem i .unlocking)
  | .unlocking =>
    (s.monitor.unlock (.signaller i)).map fun m => { s with monitor := m }.gotoItem i .finished
  | .finished => none

/-- What happens next. -/
inductive Action (n : ℕ)
  | runCaller
  | runItem (i : Fin n)
  /-- The caller wakes for no reason. -/
  | wake
  deriving DecidableEq, Repr

/-- One step of a call. -/
def State.next (vals : List ℤ) (s : State n) : Action n → Option (State n)
  | .runCaller => s.runCaller vals.length
  | .runItem i => s.runItem vals i
  | .wake => (s.monitor.wake .done (.waiter ())).map fun m => { s with monitor := m }

/-- The start of a call, after `cdl_init`. The ranges are not set. -/
def Called (s : State n) : Prop := ∃ ranges, s = ⟨ranges, n, .new, .filling 0 0, fun _ => .absent⟩

/-- All runs of `par_adder` on an array. -/
def parAdder (n : ℕ) (vals : List ℤ) : System (State n) (Action n) := ofNext Called (State.next vals)

/-- Where the caller stands at the latch. -/
def CallerPc.atLatch : CallerPc → CountdownLatch.WaiterPc
  | .filling .. => .before
  | .locking => .locking
  | .checking => .checking
  | .waiting => .waiting
  | .unlocking => .unlocking
  | .collecting .. | .mutexDestroying _ | .condDestroying _ | .returned _ => .after

/-- Where a work item stands at the latch. -/
def ItemPc.atLatch : ItemPc → CountdownLatch.SignallerPc
  | .absent | .queued | .summing .. | .storing _ => .before
  | .locking => .locking
  | .decrementing => .decrementing
  | .broadcasting => .broadcasting
  | .unlocking => .unlocking
  | .finished => .finished

/-- The latch of a call, at which the caller waits alone. -/
def State.latch (s : State n) : CountdownLatch.State Unit (Fin n) :=
  ⟨s.counter, s.monitor, fun _ => s.caller.atLatch, ItemPc.atLatch ∘ s.item⟩

variable {vals : List ℤ} {s t : State n} {i : Fin n}

/-- An item that moves on moves on at the latch. -/
theorem latch_gotoItem (s : State n) (i : Fin n) (q : ItemPc) :
    (s.gotoItem i q).latch = s.latch.goto i q.atLatch := by
  unfold State.gotoItem State.latch CountdownLatch.State.goto
  rw [Function.comp_update]

/-- An item that stays where it is at the latch. -/
theorem latch_gotoItem_same {q : ItemPc} (hsame : q.atLatch = (s.item i).atLatch) :
    (s.gotoItem i q).latch = s.latch := by
  rw [latch_gotoItem, CountdownLatch.State.goto, hsame]
  show { s.latch with signaller := Function.update s.latch.signaller i (s.latch.signaller i) } = _
  rw [Function.update_eq_self]

/-- Every statement of an item is one of its signaller, or leaves the latch alone. -/
theorem latch_runItem (hrun : s.runItem vals i = some t) :
    t.latch = s.latch ∨ s.latch.runSignaller i = some t.latch := by
  unfold State.runItem at hrun
  unfold CountdownLatch.State.runSignaller
  have hat : s.latch.signaller i = (s.item i).atLatch := rfl
  cases hpc : s.item i with
  | absent | finished =>
    simp only [hpc] at hrun
    cases hrun
  | queued =>
    simp only [hpc, Option.some.injEq] at hrun
    subst hrun
    exact .inl (latch_gotoItem_same (by rw [hpc]; rfl))
  | summing curr partialSum =>
    simp only [hpc] at hrun
    left
    split at hrun
    · obtain ⟨v, -, rfl⟩ := Option.map_eq_some_iff.mp hrun
      exact latch_gotoItem_same (by rw [hpc]; rfl)
    · cases hrun
      exact latch_gotoItem_same (by rw [hpc]; rfl)
  | storing partialSum =>
    simp only [hpc, Option.some.injEq] at hrun
    subst hrun
    rw [hat, hpc, latch_gotoItem]
    exact .inr rfl
  | locking =>
    simp only [hpc] at hrun
    obtain ⟨m, hm, rfl⟩ := Option.map_eq_some_iff.mp hrun
    rw [hat, hpc, latch_gotoItem]
    exact .inr (Option.map_eq_some_iff.mpr ⟨m, hm, rfl⟩)
  | decrementing =>
    simp only [hpc, Option.some.injEq] at hrun
    subst hrun
    rw [hat, hpc, latch_gotoItem, apply_ite ItemPc.atLatch]
    exact .inr rfl
  | broadcasting =>
    simp only [hpc, Option.some.injEq] at hrun
    subst hrun
    rw [hat, hpc, latch_gotoItem]
    exact .inr rfl
  | unlocking =>
    simp only [hpc] at hrun
    obtain ⟨m, hm, rfl⟩ := Option.map_eq_some_iff.mp hrun
    rw [hat, hpc, latch_gotoItem]
    exact .inr (Option.map_eq_some_iff.mpr ⟨m, hm, rfl⟩)

/-- Every statement of the caller is one of the waiter, or leaves the latch alone. -/
theorem latch_runCaller {nvals : ℕ} (hrun : s.runCaller nvals = some t)
    (habsent : ∀ k curr, s.caller = .filling k curr → ∀ h : k < n, s.item ⟨k, h⟩ = .absent) :
    t.latch = s.latch ∨ s.latch.runWaiter () = some t.latch := by
  unfold State.runCaller at hrun
  unfold CountdownLatch.State.runWaiter
  have hat : s.latch.waiter () = s.caller.atLatch := rfl
  rw [hat]
  cases hpc : s.caller with
  | filling k curr =>
    simp only [hpc] at hrun
    split at hrun
    · next hk =>
      cases hrun
      left
      have hsame := latch_gotoItem_same (s := s) (i := ⟨k, hk⟩) (q := .queued)
        (by rw [habsent k curr hpc hk]; rfl)
      rw [← hsame]
      unfold State.latch State.submit State.gotoItem
      rw [hpc]
      rfl
    · cases hrun
      exact .inr rfl
  | locking | waiting | unlocking =>
    simp only [hpc] at hrun
    obtain ⟨m, hm, rfl⟩ := Option.map_eq_some_iff.mp hrun
    exact .inr (Option.map_eq_some_iff.mpr ⟨m, hm, rfl⟩)
  | checking =>
    simp only [hpc] at hrun
    right
    split at hrun
    · next hpos =>
      obtain ⟨m, hm, rfl⟩ := Option.map_eq_some_iff.mp hrun
      exact (if_pos hpos).trans (Option.map_eq_some_iff.mpr ⟨m, hm, rfl⟩)
    · next hopen =>
      cases hrun
      exact if_neg hopen
  | collecting k total =>
    simp only [hpc] at hrun
    left
    split at hrun
    · cases hrun
      simp only [State.latch, hpc, CallerPc.atLatch]
    · cases hrun
      simp only [State.latch, hpc, CallerPc.atLatch]
  | mutexDestroying total | condDestroying total =>
    simp only [hpc, Option.some.injEq] at hrun
    subst hrun
    left
    simp only [State.latch, hpc, CallerPc.atLatch]
  | returned total =>
    simp only [hpc] at hrun
    cases hrun

end SistemasOperativos.LatchedAdder
