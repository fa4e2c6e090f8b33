import SistemasOperativos.BoundedFifo
import SistemasOperativos.ByteRing
import SistemasOperativos.ConditionMonitor
import SistemasOperativos.MachineInt

/-!
# The memory channel with a mutex and two conditions

A channel is a circular byte buffer with a put index, a get index and a
counter, protected by one mutex. Processes call `mc_put` and `mc_get` and are
interleaved statement by statement. The channel refines a bounded first-in
first-out queue: a call takes effect when it copies its element, and what is
left for the lock holder to do only settles the indexes.
-/

namespace SistemasOperativos.MutexChannel

open TransitionRuns BoundedFifo ByteRing ConditionMonitor MachineInt
open ByteMemory (Byte)

/-- The shared record, without its mutex and conditions. -/
structure MemChannel where
  /-- Index of the slot for the next put. -/
  iput : ℤ
  /-- Index of the slot for the next get. -/
  iget : ℤ
  /-- Number of slots. -/
  capacity : ℤ
  /-- Bytes in a slot. -/
  elemSize : ℤ
  /-- Number of used slots. -/
  size : ℤ
  /-- The bytes from `buf` on. -/
  buf : Buffer

/-- The record that `mc_create` fills in. What the buffer holds is not set. -/
def mcCreate (elemSize capacity : ℤ) (buf : Buffer) : MemChannel :=
  ⟨0, 0, capacity, elemSize, 0, buf⟩

/-- The condition variables of a channel. -/
inductive Cond
  | hasItems
  | hasSpace
  deriving DecidableEq, Repr

/-- A call with the bytes its argument points at. -/
inductive Call
  | put (item : List Byte)
  | get
  deriving DecidableEq, Repr

/-- The condition on which a call waits. -/
def Call.waitsFor : Call → Cond
  | .put _ => .hasSpace
  | .get => .hasItems

/-- The condition that a call signals. -/
def Call.signals : Call → Cond
  | .put _ => .hasItems
  | .get => .hasSpace

/-- The test of the waiting loop. -/
def Call.blocked (rb : MemChannel) : Call → Prop
  | .put _ => rb.size = rb.capacity
  | .get => rb.size = 0

instance (rb : MemChannel) : (c : Call) → Decidable (c.blocked rb)
  | .put _ => inferInstanceAs (Decidable (rb.size = rb.capacity))
  | .get => inferInstanceAs (Decidable (rb.size = 0))

/-- The argument of a put points at a whole element. -/
def Call.WellFormed (rb : MemChannel) : Call → Prop
  | .put item => (item.length : ℤ) = rb.elemSize
  | .get => True

instance (rb : MemChannel) : (c : Call) → Decidable (c.WellFormed rb)
  | .put item => inferInstanceAs (Decidable ((item.length : ℤ) = rb.elemSize))
  | .get => .isTrue trivial

/-- Offset of the slot with an index. -/
def MemChannel.slot (rb : MemChannel) (index : ℤ) : ℤ := int32 (index * rb.elemSize)

/-- The `memcpy` of a call, on the channel. -/
def Call.copied (rb : MemChannel) : Call → MemChannel
  | .put item => { rb with buf := copy rb.buf (rb.slot rb.iput) item }
  | .get => rb

/-- The element that the `memcpy` of `mc_get` reads. -/
def MemChannel.front (rb : MemChannel) : List Byte :=
  slice rb.buf (rb.slot rb.iget) rb.elemSize.toNat

/-- `rb->iput++` or `rb->iget++`. -/
def Call.advanced (rb : MemChannel) : Call → MemChannel
  | .put _ => { rb with iput := int32 (rb.iput + 1) }
  | .get => { rb with iget := int32 (rb.iget + 1) }

/-- The reset of the index that reached the capacity. -/
def Call.wrapped (rb : MemChannel) : Call → MemChannel
  | .put _ => if rb.iput = rb.capacity then { rb with iput := 0 } else rb
  | .get => if rb.iget = rb.capacity then { rb with iget := 0 } else rb

/-- `rb->size++` or `rb->size--`. -/
def Call.counted (rb : MemChannel) : Call → MemChannel
  | .put _ => { rb with size := int32 (rb.size + 1) }
  | .get => { rb with size := int32 (rb.size - 1) }

/-- Where a process stands, by its next statement. -/
inductive Pc
  | idle
  /-- `pthread_mutex_lock`. -/
  | locking (c : Call)
  /-- The test of the waiting loop. -/
  | checking (c : Call)
  /-- Inside `pthread_cond_wait`. -/
  | waiting (c : Call)
  /-- `memcpy`. -/
  | copying (c : Call)
  /-- The increment of the index. -/
  | advancing (c : Call)
  /-- The reset of the index. -/
  | wrapping (c : Call)
  /-- The update of the counter. -/
  | counting (c : Call)
  /-- `pthread_mutex_unlock`. -/
  | unlocking (c : Call)
  /-- `pthread_cond_signal`. -/
  | signaling (c : Call)
  deriving DecidableEq, Repr

/-- The statements executed with the mutex held. -/
def Pc.Holding : Pc → Prop
  | .idle | .locking _ | .waiting _ | .signaling _ => False
  | .checking _ | .copying _ | .advancing _ | .wrapping _ | .counting _ | .unlocking _ => True

/-- The call that a process executes. -/
def Pc.call? : Pc → Option Call
  | .idle => none
  | .locking c | .checking c | .waiting c | .copying c | .advancing c | .wrapping c | .counting c
  | .unlocking c | .signaling c => some c

variable {π : Type*} [DecidableEq π]

/-- A channel with the processes that use it and the history of the copies. -/
structure State (π : Type*) where
  /-- The shared record. -/
  rb : MemChannel
  /-- The mutex and the conditions of the record. -/
  monitor : Monitor π Cond
  /-- Where each process stands. -/
  pc : π → Pc
  /-- The bytes at each process's `item_ptr`. -/
  itemPtr : π → List Byte
  /-- Elements copied in, with the process that put them, oldest first. -/
  puts : List (π × List Byte)
  /-- Elements copied out, with the process that got them, oldest first. -/
  gets : List (π × List Byte)

/-- What a process does. -/
inductive Action (π : Type*)
  /-- Start a call. -/
  | call (c : Call)
  /-- Execute the next statement, up to the signal. -/
  | run
  /-- Execute the signal, naming the sleeper that it wakes, and return. -/
  | signal (woken : Option π)
  /-- Wake for no reason. -/
  | wake

/-- A process moves on. -/
def State.goto (s : State π) (p : π) (q : Pc) : State π :=
  { s with pc := Function.update s.pc p q }

/-- A process copies its element. -/
def State.transfer (s : State π) (p : π) (c : Call) : State π :=
  match c with
  | .put item => { s with rb := c.copied s.rb, puts := s.puts ++ [(p, item)] }
  | .get =>
    { s with
      itemPtr := Function.update s.itemPtr p s.rb.front
      gets := s.gets ++ [(p, s.rb.front)] }

/-- One statement of a process that executes a call. -/
def State.run (s : State π) (p : π) : Option (State π) :=
  match s.pc p with
  | .idle => none
  | .locking c => (s.monitor.lock p).map fun m => { s with monitor := m }.goto p (.checking c)
  | .checking c =>
    if c.blocked s.rb then
      (s.monitor.wait c.waitsFor p).map fun m => { s with monitor := m }.goto p (.waiting c)
    else some (s.goto p (.copying c))
  | .waiting c =>
    (s.monitor.relock c.waitsFor p).map fun m => { s with monitor := m }.goto p (.checking c)
  | .copying c => some ((s.transfer p c).goto p (.advancing c))
  | .advancing c => some ({ s with rb := c.advanced s.rb }.goto p (.wrapping c))
  | .wrapping c => some ({ s with rb := c.wrapped s.rb }.goto p (.counting c))
  | .counting c => some ({ s with rb := c.counted s.rb }.goto p (.unlocking c))
  | .unlocking c => (s.monitor.unlock p).map fun m => { s with monitor := m }.goto p (.signaling c)
  | .signaling _ => none

/-- One action of a process. -/
def State.next (s : State π) (l : π × Action π) : Option (State π) :=
  match l.2 with
  | .call c =>
    if s.pc l.1 = .idle ∧ c.WellFormed s.rb then some (s.goto l.1 (.locking c)) else none
  | .run => s.run l.1
  | .signal w =>
    match s.pc l.1 with
    | .signaling c =>
      (s.monitor.signal c.signals w).map fun m => { s with monitor := m }.goto l.1 .idle
    | _ => none
  | .wake =>
    match s.pc l.1 with
    | .waiting c => (s.monitor.wake c.waitsFor l.1).map fun m => { s with monitor := m }
    | _ => none

/-- The states right after `mc_create`. -/
def Created (elemSize capacity : ℤ) (s : State π) : Prop :=
  ∃ buf itemPtr, s = ⟨mcCreate elemSize capacity buf, .new, fun _ => .idle, itemPtr, [], []⟩

/-- All runs of a channel. -/
def channel (π : Type*) [DecidableEq π] (elemSize capacity : ℤ) : System (State π) (π × Action π) :=
  ofNext (Created elemSize capacity) State.next

/-- The actions of a process, one for each way through the statement at which it
stands, with what let it go that way and the state that it leaves. -/
inductive Executed (s : State π) (p : π) : Pc → State π → Prop
  | called (c : Call) : c.WellFormed s.rb → Executed s p .idle (s.goto p (.locking c))
  | locked (c : Call) : s.monitor.holder = none → Executed s p (.locking c)
      ({ s with monitor := { s.monitor with holder := some p } }.goto p (.checking c))
  | slept (c : Call) : c.blocked s.rb → s.monitor.holder = some p → Executed s p (.checking c)
      ({ s with monitor := ⟨none, Function.update s.monitor.asleep c.waitsFor
        (insert p (s.monitor.asleep c.waitsFor))⟩ }.goto p (.waiting c))
  | passed (c : Call) : ¬ c.blocked s.rb → Executed s p (.checking c) (s.goto p (.copying c))
  | relocked (c : Call) : p ∉ s.monitor.asleep c.waitsFor → s.monitor.holder = none →
      Executed s p (.waiting c)
        ({ s with monitor := { s.monitor with holder := some p } }.goto p (.checking c))
  | woken (c : Call) : p ∈ s.monitor.asleep c.waitsFor → Executed s p (.waiting c)
      { s with monitor := { s.monitor with
        asleep := Function.update s.monitor.asleep c.waitsFor
          ((s.monitor.asleep c.waitsFor).erase p) } }
  | copied (c : Call) : Executed s p (.copying c) ((s.transfer p c).goto p (.advancing c))
  | advanced (c : Call) :
      Executed s p (.advancing c) ({ s with rb := c.advanced s.rb }.goto p (.wrapping c))
  | wrapped (c : Call) :
      Executed s p (.wrapping c) ({ s with rb := c.wrapped s.rb }.goto p (.counting c))
  | counted (c : Call) :
      Executed s p (.counting c) ({ s with rb := c.counted s.rb }.goto p (.unlocking c))
  | unlocked (c : Call) : s.monitor.holder = some p → Executed s p (.unlocking c)
      ({ s with monitor := { s.monitor with holder := none } }.goto p (.signaling c))
  | signaled (c : Call) (w : Option π) (m : Monitor π Cond) :
      s.monitor.signal c.signals w = some m →
      Executed s p (.signaling c) ({ s with monitor := m }.goto p .idle)

/-- Every statement goes one of these ways. -/
theorem run_executed {s t : State π} {p : π} (h : s.run p = some t) : Executed s p (s.pc p) t := by
  unfold State.run at h
  cases hpc : s.pc p with
  | idle | signaling c => simp only [hpc] at h; cases h
  | locking c =>
    simp only [hpc] at h
    obtain ⟨m, hm, rfl⟩ := Option.map_eq_some_iff.mp h
    obtain ⟨hfree, rfl⟩ := Monitor.lock_spec hm
    exact .locked c hfree
  | checking c =>
    simp only [hpc] at h
    split at h
    next hblocked =>
      obtain ⟨m, hm, rfl⟩ := Option.map_eq_some_iff.mp h
      obtain ⟨hheld, rfl⟩ := Monitor.wait_spec hm
      exact .slept c hblocked hheld
    next hopen =>
      cases h
      exact .passed c hopen
  | waiting c =>
    simp only [hpc] at h
    obtain ⟨m, hm, rfl⟩ := Option.map_eq_some_iff.mp h
    obtain ⟨hawake, hfree, rfl⟩ := Monitor.relock_spec hm
    exact .relocked c hawake hfree
  | copying c =>
    simp only [hpc] at h
    cases h
    exact .copied c
  | advancing c =>
    simp only [hpc] at h
    cases h
    exact .advanced c
  | wrapping c =>
    simp only [hpc] at h
    cases h
    exact .wrapped c
  | counting c =>
    simp only [hpc] at h
    cases h
    exact .counted c
  | unlocking c =>
    simp only [hpc] at h
    obtain ⟨m, hm, rfl⟩ := Option.map_eq_some_iff.mp h
    obtain ⟨hheld, rfl⟩ := Monitor.unlock_spec hm
    exact .unlocked c hheld

/-- Every action goes one of these ways. -/
theorem next_executed {s t : State π} {p : π} {a : Action π} (h : s.next (p, a) = some t) :
    Executed s p (s.pc p) t := by
  cases a with
  | call c =>
    simp only [State.next, Option.ite_none_right_eq_some, Option.some.injEq] at h
    obtain ⟨⟨hidle, hwf⟩, rfl⟩ := h
    exact hidle ▸ .called c hwf
  | run => exact run_executed h
  | signal w =>
    simp only [State.next] at h
    split at h
    next c hpc =>
      obtain ⟨m, hm, rfl⟩ := Option.map_eq_some_iff.mp h
      exact hpc ▸ .signaled c w m hm
    next => cases h
  | wake =>
    simp only [State.next] at h
    split at h
    next c hpc =>
      obtain ⟨m, hm, rfl⟩ := Option.map_eq_some_iff.mp h
      simp only [Monitor.wake, Monitor.signal, Option.ite_none_right_eq_some,
        Option.some.injEq] at hm
      obtain ⟨hasleep, rfl⟩ := hm
      rw [hpc]
      exact .woken c hasleep
    next => cases h

end SistemasOperativos.MutexChannel
