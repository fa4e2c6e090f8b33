import SistemasOperativos.FlagThreadPool

/-!
# The steps of the pool with the flag

The ways through each statement, with what lets a thread go that way.
-/

namespace SistemasOperativos.FlagThreadPool

open ConditionMonitor
open ThreadPool (nthreads WorkItem Cond Caller PutStage)

variable {κ φ α : Type*} [DecidableEq κ]

/-- The actions of a thread, one for each way through the statement at which it
stands, with the state that they leave. -/
inductive Executed (s : State κ φ α) (p : Thread κ) :
    Action κ φ α → Pc φ α → State κ φ α → Prop
  | submitCall (func : φ) (arg : α) :
      Executed s p (.submit func arg) .idle (s.goto p (.submitLocking .client func arg))
  | submitInside (x : WorkItem φ α) (func : φ) (arg : α) :
      Executed s p (.submit func arg) (.running x) (s.goto p (.submitLocking (.item x) func arg))
  | submitLocked (k : Caller φ α) (func : φ) (arg : α) : s.lock.holder = none →
      Executed s p .run (.submitLocking k func arg)
        ({ s with lock := { s.lock with holder := some p } }.goto p (.submitChecking k func arg))
  | refused (k : Caller φ α) (func : φ) (arg : α) : s.terminated = true →
      Executed s p .run (.submitChecking k func arg) (s.goto p (.submitUnlocking k))
  | accepted (k : Caller φ α) (func : φ) (arg : α) : s.terminated = false →
      Executed s p .run (.submitChecking k func arg) ({ s with created := s.created + 1 }.goto p
        (.putting (.submit k ⟨s.created, func, arg⟩) .locking))
  | putLocked (k : Put φ α) : s.queue.holder = none → Executed s p .run (.putting k .locking)
      ({ s with queue := { s.queue with holder := some p } }.goto p (.putting k .inserting))
  | inserted (k : Put φ α) :
      Executed s p .run (.putting k .inserting) ((s.insert k).goto p (.putting k .signaling))
  | signaled (k : Put φ α) (w : Option (Thread κ)) (m : Monitor (Thread κ) Cond) :
      s.queue.signal .hasItems w = some m →
      Executed s p (.signal w) (.putting k .signaling)
        ({ s with queue := m }.goto p (.putting k .unlocking))
  | putUnlocked (k : Put φ α) : s.queue.holder = some p →
      Executed s p .run (.putting k .unlocking)
        ({ s with queue := { s.queue with holder := none } }.goto p k.back)
  | submitUnlocked (k : Caller φ α) : s.lock.holder = some p →
      Executed s p .run (.submitUnlocking k)
        ({ s with lock := { s.lock with holder := none } }.goto p (back k))
  | destroyLocked : s.lock.holder = none → Executed s p .run .destroyLocking
      ({ s with lock := { s.lock with holder := some p } }.goto p .destroyChecking)
  | destroyedBefore : s.terminated = true →
      Executed s p .run .destroyChecking (s.goto p .destroyUnlocking)
  | destroyedFirst : s.terminated = false →
      Executed s p .run .destroyChecking (s.goto p .terminating)
  | terminated : Executed s p .run .terminating ({ s with terminated := true }.goto p (.filling 0))
  | fill (i : ℕ) : i < nthreads →
      Executed s p .run (.filling i) (s.goto p (.putting (.destroy i) .locking))
  | filled (i : ℕ) : ¬ i < nthreads → Executed s p .run (.filling i) (s.goto p (.joining 0))
  | join (i : Fin nthreads) : s.pc (.worker i) = .finished →
      Executed s p .run (.joining i) (s.goto p (.joining (i + 1)))
  | joined (i : ℕ) : ¬ i < nthreads →
      Executed s p .run (.joining i) (s.goto p .destroyUnlocking)
  | destroyUnlocked : s.lock.holder = some p → Executed s p .run .destroyUnlocking
      ({ s with lock := { s.lock with holder := none } }.goto p .queueDestroying)
  | queueDestroy : Executed s p .run .queueDestroying (s.goto p .lockDestroying)
  | lockDestroy : Executed s p .run .lockDestroying (s.goto p .returned)
  | leave : s.terminated = true → Executed s p .run .testing (s.goto p .finished)
  | enter : s.terminated = false → Executed s p .run .testing (s.goto p .getLocking)
  | getLocked : s.queue.holder = none → Executed s p .run .getLocking
      ({ s with queue := { s.queue with holder := some p } }.goto p .getChecking)
  | getEmpty : s.queue.holder = some p → Executed s p .run .getChecking
      ({ s with queue := ⟨none, Function.update s.queue.asleep .hasItems
        (insert p (s.queue.asleep .hasItems))⟩ }.goto p .getWaiting)
  | getFound : Executed s p .run .getChecking (s.goto p .getRemoving)
  | getRelocked : s.queue.holder = none → Executed s p .run .getWaiting
      ({ s with queue := { s.queue with holder := some p } }.goto p .getChecking)
  | woken (m : Monitor (Thread κ) Cond) : s.queue.wake .hasItems p = some m →
      Executed s p .wake .getWaiting ({ s with queue := m }.goto p .getWaiting)
  | removed (item : Option (WorkItem φ α)) (rest : List (Option (WorkItem φ α))) :
      s.list = item :: rest →
      Executed s p .run .getRemoving ({ s with list := rest }.goto p (.getUnlocking item))
  | getUnlocked (item : Option (WorkItem φ α)) : s.queue.holder = some p →
      Executed s p .run (.getUnlocking item)
        ({ s with queue := { s.queue with holder := none } }.goto p (.nullTesting item))
  | stop : Executed s p .run (.nullTesting none) (s.goto p .finished)
  | take (x : WorkItem φ α) : Executed s p .run (.nullTesting (some x)) (s.goto p (.calling x))
  | called (x : WorkItem φ α) :
      Executed s p .run (.calling x) ({ s with called := s.called ++ [x] }.goto p (.running x))
  | itemReturned (x : WorkItem φ α) : Executed s p .run (.running x) (s.goto p .testing)

/-- Every statement goes one of these ways. -/
theorem run_executed {s t : State κ φ α} {p : Thread κ} (h : s.run p = some t) :
    Executed s p .run (s.pc p) t := by
  unfold State.run at h
  cases hpc : s.pc p with
  | idle | finished | returned =>
    simp only [hpc] at h
    cases h
  | submitLocking k func arg =>
    simp only [hpc] at h
    obtain ⟨m, hm, rfl⟩ := Option.map_eq_some_iff.mp h
    obtain ⟨hfree, rfl⟩ := Monitor.lock_spec hm
    exact .submitLocked k func arg hfree
  | submitChecking k func arg =>
    simp only [hpc] at h
    split at h
    next hset =>
      cases h
      exact .refused k func arg hset
    next hclear =>
      cases h
      exact .accepted k func arg (Bool.eq_false_iff.mpr hclear)
  | putting k stage =>
    simp only [hpc] at h
    cases stage with
    | locking =>
      obtain ⟨m, hm, rfl⟩ := Option.map_eq_some_iff.mp h
      obtain ⟨hfree, rfl⟩ := Monitor.lock_spec hm
      exact .putLocked k hfree
    | inserting =>
      cases h
      exact .inserted k
    | signaling => cases h
    | unlocking =>
      obtain ⟨m, hm, rfl⟩ := Option.map_eq_some_iff.mp h
      obtain ⟨hheld, rfl⟩ := Monitor.unlock_spec hm
      exact .putUnlocked k hheld
  | submitUnlocking k =>
    simp only [hpc] at h
    obtain ⟨m, hm, rfl⟩ := Option.map_eq_some_iff.mp h
    obtain ⟨hheld, rfl⟩ := Monitor.unlock_spec hm
    exact .submitUnlocked k hheld
  | destroyLocking =>
    simp only [hpc] at h
    obtain ⟨m, hm, rfl⟩ := Option.map_eq_some_iff.mp h
    obtain ⟨hfree, rfl⟩ := Monitor.lock_spec hm
    exact .destroyLocked hfree
  | destroyChecking =>
    simp only [hpc] at h
    split at h
    next hset =>
      cases h
      exact .destroyedBefore hset
    next hclear =>
      cases h
      exact .destroyedFirst (Bool.eq_false_iff.mpr hclear)
  | terminating =>
    simp only [hpc] at h
    cases h
    exact .terminated
  | filling i =>
    simp only [hpc] at h
    split at h
    next hi =>
      cases h
      exact .fill i hi
    next hi =>
      cases h
      exact .filled i hi
  | joining i =>
    simp only [hpc] at h
    split at h
    next hi =>
      split at h
      next hfinished =>
        cases h
        exact .join ⟨i, hi⟩ hfinished
      next => cases h
    next hi =>
      cases h
      exact .joined i hi
  | destroyUnlocking =>
    simp only [hpc] at h
    obtain ⟨m, hm, rfl⟩ := Option.map_eq_some_iff.mp h
    obtain ⟨hheld, rfl⟩ := Monitor.unlock_spec hm
    exact .destroyUnlocked hheld
  | queueDestroying =>
    simp only [hpc] at h
    cases h
    exact .queueDestroy
  | lockDestroying =>
    simp only [hpc] at h
    cases h
    exact .lockDestroy
  | testing =>
    simp only [hpc] at h
    split at h
    next hset =>
      cases h
      exact .leave hset
    next hclear =>
      cases h
      exact .enter (Bool.eq_false_iff.mpr hclear)
  | getLocking =>
    simp only [hpc] at h
    obtain ⟨m, hm, rfl⟩ := Option.map_eq_some_iff.mp h
    obtain ⟨hfree, rfl⟩ := Monitor.lock_spec hm
    exact .getLocked hfree
  | getChecking =>
    simp only [hpc] at h
    split at h
    next =>
      obtain ⟨m, hm, rfl⟩ := Option.map_eq_some_iff.mp h
      obtain ⟨hheld, rfl⟩ := Monitor.wait_spec hm
      exact .getEmpty hheld
    next =>
      cases h
      exact .getFound
  | getWaiting =>
    simp only [hpc] at h
    obtain ⟨m, hm, rfl⟩ := Option.map_eq_some_iff.mp h
    obtain ⟨-, hfree, rfl⟩ := Monitor.relock_spec hm
    exact .getRelocked hfree
  | getRemoving =>
    simp only [hpc] at h
    split at h
    next => cases h
    next item rest hlist =>
      cases h
      exact .removed item rest hlist
  | getUnlocking item =>
    simp only [hpc] at h
    obtain ⟨m, hm, rfl⟩ := Option.map_eq_some_iff.mp h
    obtain ⟨hheld, rfl⟩ := Monitor.unlock_spec hm
    exact .getUnlocked item hheld
  | nullTesting item =>
    cases item with
    | none =>
      simp only [hpc] at h
      cases h
      exact .stop
    | some x =>
      simp only [hpc] at h
      cases h
      exact .take x
  | calling x =>
    simp only [hpc] at h
    cases h
    exact .called x
  | running x =>
    simp only [hpc] at h
    cases h
    exact .itemReturned x

/-- Every action goes one of these ways. -/
theorem next_executed {s t : State κ φ α} {p : Thread κ} {a : Action κ φ α}
    (h : s.next (p, a) = some t) : Executed s p a (s.pc p) t := by
  cases a with
  | submit func arg =>
    simp only [State.next] at h
    split at h
    next hpc =>
      cases h
      exact hpc ▸ .submitCall func arg
    next x hpc =>
      cases h
      exact hpc ▸ .submitInside x func arg
    next => cases h
  | run => exact run_executed h
  | signal w =>
    simp only [State.next] at h
    split at h
    next k hpc =>
      obtain ⟨m, hm, rfl⟩ := Option.map_eq_some_iff.mp h
      exact hpc ▸ .signaled k w m hm
    next => cases h
  | wake =>
    simp only [State.next] at h
    split at h
    next hpc =>
      obtain ⟨m, hm, rfl⟩ := Option.map_eq_some_iff.mp h
      have hstill := Executed.woken (s := s) m hm
      rw [← hpc, State.goto, Function.update_eq_self] at hstill
      exact hstill
    next => cases h

end SistemasOperativos.FlagThreadPool
