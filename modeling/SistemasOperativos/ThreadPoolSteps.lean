import SistemasOperativos.ThreadPool

/-!
# The steps of the thread pool

Every action goes one of the ways through its statement. Most ways only move
their thread and work on a lock. The others set the flag, create an item, put a
node into the list or take one out of it, or call the function of an item, and
this is all that most invariants need of them.
-/

namespace SistemasOperativos.ThreadPool

open ConditionMonitor

variable {κ φ α : Type*} [DecidableEq κ]

/-- The actions of a thread, one for each way through the statement at which it
stands, with what let it go that way and the state that it leaves. -/
inductive Executed (s : State κ φ α) (p : Thread κ) : Pc φ α → State κ φ α → Prop
  | submitCall (func : φ) (arg : α) : Executed s p .idle (s.goto p (.loading .client func arg))
  | submitInside (x : WorkItem φ α) (func : φ) (arg : α) :
      Executed s p (.running x) (s.goto p (.loading (.item x) func arg))
  | refusedEarly (k : Caller φ α) (func : φ) (arg : α) : s.destroying ≠ 0 →
      Executed s p (.loading k func arg) (s.goto p k.back)
  | loaded (k : Caller φ α) (func : φ) (arg : α) : s.destroying = 0 →
      Executed s p (.loading k func arg) (s.goto p (.submitLocking k func arg))
  | submitLocked (k : Caller φ α) (func : φ) (arg : α) : s.lock.holder = none →
      Executed s p (.submitLocking k func arg)
        ({ s with lock := { s.lock with holder := some p } }.goto p (.submitChecking k func arg))
  | accepted (k : Caller φ α) (func : φ) (arg : α) : s.destroying = 0 →
      Executed s p (.submitChecking k func arg) ({ s with created := s.created + 1 }.goto p
        (.putting (.submit k) (some ⟨s.created, func, arg⟩) .locking))
  | refused (k : Caller φ α) (func : φ) (arg : α) : s.destroying ≠ 0 →
      Executed s p (.submitChecking k func arg) (s.goto p (.submitUnlocking k))
  | putLocked (k : PutCaller φ α) (item : Option (WorkItem φ α)) : s.queue.holder = none →
      Executed s p (.putting k item .locking)
        ({ s with queue := { s.queue with holder := some p } }.goto p (.putting k item .inserting))
  | inserted (k : PutCaller φ α) (item : Option (WorkItem φ α)) :
      Executed s p (.putting k item .inserting) ((s.insert item).goto p (.putting k item .signaling))
  | signaled (k : PutCaller φ α) (item : Option (WorkItem φ α)) (w : Option (Thread κ))
      (m : Monitor (Thread κ) Cond) : s.queue.signal .hasItems w = some m →
      Executed s p (.putting k item .signaling)
        ({ s with queue := m }.goto p (.putting k item .unlocking))
  | putUnlocked (k : PutCaller φ α) (item : Option (WorkItem φ α)) : s.queue.holder = some p →
      Executed s p (.putting k item .unlocking)
        ({ s with queue := { s.queue with holder := none } }.goto p k.back)
  | submitUnlocked (k : Caller φ α) : s.lock.holder = some p →
      Executed s p (.submitUnlocking k)
        ({ s with lock := { s.lock with holder := none } }.goto p k.back)
  | destroyCall : Executed s p .idle (s.goto p .exchanging)
  | won : s.destroying = 0 → Executed s p .exchanging
      ({ s with destroying := 1, winner := some p }.goto p .destroyLocking)
  | lost : s.destroying ≠ 0 → Executed s p .exchanging (s.goto p .queueDestroying)
  | destroyLocked : s.lock.holder = none → Executed s p .destroyLocking
      ({ s with lock := { s.lock with holder := some p } }.goto p (.filling 0))
  | fill (i : ℕ) : i < nthreads →
      Executed s p (.filling i) (s.goto p (.putting (.destroy i) none .locking))
  | filled (i : ℕ) : ¬ i < nthreads → Executed s p (.filling i) (s.goto p .destroyUnlocking)
  | destroyUnlocked : s.lock.holder = some p → Executed s p .destroyUnlocking
      ({ s with lock := { s.lock with holder := none } }.goto p (.joining 0))
  | join (i : Fin nthreads) : s.pc (.worker i) = .finished →
      Executed s p (.joining i) (s.goto p (.joining (i + 1)))
  | joined (i : ℕ) : ¬ i < nthreads → Executed s p (.joining i) (s.goto p .queueDestroying)
  | queueDestroy : Executed s p .queueDestroying
      ({ s with queueDestroyed := s.queueDestroyed + 1 }.goto p .lockDestroying)
  | lockDestroy : Executed s p .lockDestroying
      ({ s with lockDestroyed := s.lockDestroyed + 1 }.goto p .idle)
  | getLocked : s.queue.holder = none → Executed s p .getLocking
      ({ s with queue := { s.queue with holder := some p } }.goto p .getChecking)
  | getEmpty : s.list = [] → s.queue.holder = some p → Executed s p .getChecking
      ({ s with queue := ⟨none, Function.update s.queue.asleep .hasItems
        (insert p (s.queue.asleep .hasItems))⟩ }.goto p .getWaiting)
  | getFound : s.list ≠ [] → Executed s p .getChecking (s.goto p .getRemoving)
  | getRelocked : p ∉ s.queue.asleep .hasItems → s.queue.holder = none →
      Executed s p .getWaiting
        ({ s with queue := { s.queue with holder := some p } }.goto p .getChecking)
  | woken : p ∈ s.queue.asleep .hasItems → Executed s p .getWaiting
      ({ s with queue := ⟨s.queue.holder, Function.update s.queue.asleep .hasItems
        ((s.queue.asleep .hasItems).erase p)⟩ }.goto p .getWaiting)
  | removed (item : Option (WorkItem φ α)) (rest : List (Option (WorkItem φ α))) :
      s.list = item :: rest →
      Executed s p .getRemoving ((s.remove p rest item).goto p (.getUnlocking item))
  | getUnlocked (item : Option (WorkItem φ α)) : s.queue.holder = some p →
      Executed s p (.getUnlocking item)
        ({ s with queue := { s.queue with holder := none } }.goto p (.testing item))
  | stop : Executed s p (.testing none) (s.goto p .finished)
  | take (x : WorkItem φ α) : Executed s p (.testing (some x)) (s.goto p (.calling x))
  | called (x : WorkItem φ α) : Executed s p (.calling x)
      ({ s with called := Function.update s.called p (s.called p ++ [x]) }.goto p (.running x))
  | returned (x : WorkItem φ α) : Executed s p (.running x) (s.goto p .getLocking)

/-- Every statement goes one of these ways. -/
theorem run_executed {s t : State κ φ α} {p : Thread κ} (h : s.run p = some t) :
    Executed s p (s.pc p) t := by
  unfold State.run at h
  cases hpc : s.pc p with
  | idle | finished => simp only [hpc] at h; cases h
  | loading k func arg =>
    simp only [hpc] at h
    split at h
    next hset =>
      cases h
      exact .refusedEarly k func arg hset
    next hclear =>
      cases h
      exact .loaded k func arg (not_not.mp hclear)
  | submitLocking k func arg =>
    simp only [hpc] at h
    obtain ⟨m, hm, rfl⟩ := Option.map_eq_some_iff.mp h
    obtain ⟨hfree, rfl⟩ := Monitor.lock_spec hm
    exact .submitLocked k func arg hfree
  | submitChecking k func arg =>
    simp only [hpc] at h
    split at h
    next hclear =>
      cases h
      exact .accepted k func arg hclear
    next hset =>
      cases h
      exact .refused k func arg hset
  | putting k item stage =>
    simp only [hpc] at h
    cases stage with
    | locking =>
      obtain ⟨m, hm, rfl⟩ := Option.map_eq_some_iff.mp h
      obtain ⟨hfree, rfl⟩ := Monitor.lock_spec hm
      exact .putLocked k item hfree
    | inserting =>
      cases h
      exact .inserted k item
    | signaling => cases h
    | unlocking =>
      obtain ⟨m, hm, rfl⟩ := Option.map_eq_some_iff.mp h
      obtain ⟨hheld, rfl⟩ := Monitor.unlock_spec hm
      exact .putUnlocked k item hheld
  | submitUnlocking k =>
    simp only [hpc] at h
    obtain ⟨m, hm, rfl⟩ := Option.map_eq_some_iff.mp h
    obtain ⟨hheld, rfl⟩ := Monitor.unlock_spec hm
    exact .submitUnlocked k hheld
  | exchanging =>
    simp only [hpc] at h
    split at h
    next hclear =>
      cases h
      exact .won hclear
    next hset =>
      cases h
      exact .lost hset
  | destroyLocking =>
    simp only [hpc] at h
    obtain ⟨m, hm, rfl⟩ := Option.map_eq_some_iff.mp h
    obtain ⟨hfree, rfl⟩ := Monitor.lock_spec hm
    exact .destroyLocked hfree
  | filling i =>
    simp only [hpc] at h
    split at h
    next hi =>
      cases h
      exact .fill i hi
    next hi =>
      cases h
      exact .filled i hi
  | destroyUnlocking =>
    simp only [hpc] at h
    obtain ⟨m, hm, rfl⟩ := Option.map_eq_some_iff.mp h
    obtain ⟨hheld, rfl⟩ := Monitor.unlock_spec hm
    exact .destroyUnlocked hheld
  | joining i =>
    simp only [hpc] at h
    split at h
    next hi =>
      split at h
      next hfinished =>
        cases h
        exact .join ⟨i, hi⟩ hfinished
      next => cases h
    next hi =>
      cases h
      exact .joined i hi
  | queueDestroying =>
    simp only [hpc] at h
    cases h
    exact .queueDestroy
  | lockDestroying =>
    simp only [hpc] at h
    cases h
    exact .lockDestroy
  | getLocking =>
    simp only [hpc] at h
    obtain ⟨m, hm, rfl⟩ := Option.map_eq_some_iff.mp h
    obtain ⟨hfree, rfl⟩ := Monitor.lock_spec hm
    exact .getLocked hfree
  | getChecking =>
    simp only [hpc] at h
    split at h
    next hempty =>
      obtain ⟨m, hm, rfl⟩ := Option.map_eq_some_iff.mp h
      obtain ⟨hheld, rfl⟩ := Monitor.wait_spec hm
      exact .getEmpty (List.isEmpty_iff.mp hempty) hheld
    next hsome =>
      cases h
      exact .getFound fun hnil => hsome (List.isEmpty_iff.mpr hnil)
  | getWaiting =>
    simp only [hpc] at h
    obtain ⟨m, hm, rfl⟩ := Option.map_eq_some_iff.mp h
    obtain ⟨hawake, hfree, rfl⟩ := Monitor.relock_spec hm
    exact .getRelocked hawake hfree
  | getRemoving =>
    simp only [hpc] at h
    split at h
    next => cases h
    next item rest hlist =>
      cases h
      exact .removed item rest hlist
  | getUnlocking item =>
    simp only [hpc] at h
    obtain ⟨m, hm, rfl⟩ := Option.map_eq_some_iff.mp h
    obtain ⟨hheld, rfl⟩ := Monitor.unlock_spec hm
    exact .getUnlocked item hheld
  | testing item =>
    cases item with
    | none =>
      simp only [hpc] at h
      cases h
      exact .stop
    | some x =>
      simp only [hpc] at h
      cases h
      exact .take x
  | calling x =>
    simp only [hpc] at h
    cases h
    exact .called x
  | running x =>
    simp only [hpc] at h
    cases h
    exact .returned x

/-- Every action goes one of these ways. -/
theorem next_executed {s t : State κ φ α} {p : Thread κ} {a : Action κ φ α}
    (h : s.next (p, a) = some t) : Executed s p (s.pc p) t := by
  cases a with
  | submit func arg =>
    simp only [State.next] at h
    split at h
    next hpc =>
      cases h
      exact hpc ▸ .submitCall func arg
    next x hpc =>
      cases h
      exact hpc ▸ .submitInside x func arg
    next => cases h
  | destroy =>
    simp only [State.next] at h
    split at h
    next hpc =>
      cases h
      exact hpc ▸ .destroyCall
    next => cases h
  | run => exact run_executed h
  | signal w =>
    simp only [State.next] at h
    split at h
    next k item hpc =>
      obtain ⟨m, hm, rfl⟩ := Option.map_eq_some_iff.mp h
      exact hpc ▸ .signaled k item w m hm
    next => cases h
  | wake =>
    simp only [State.next] at h
    split at h
    next hpc =>
      obtain ⟨m, hm, rfl⟩ := Option.map_eq_some_iff.mp h
      simp only [Monitor.wake, Monitor.signal, Option.ite_none_right_eq_some,
        Option.some.injEq] at hm
      obtain ⟨hasleep, rfl⟩ := hm
      have hstill := Executed.woken (s := s) hasleep
      rw [← hpc, State.goto, Function.update_eq_self] at hstill
      exact hstill
    next => cases h

/-- Steps that only move a thread, from one place to another. Locks and wake-ups
are left out. -/
inductive Quiet (s : State κ φ α) : Pc φ α → Pc φ α → Prop
  | still (q : Pc φ α) : Quiet s q q
  | submitCall (func : φ) (arg : α) : Quiet s .idle (.loading .client func arg)
  | submitInside (x : WorkItem φ α) (func : φ) (arg : α) :
      Quiet s (.running x) (.loading (.item x) func arg)
  | refusedEarly (k : Caller φ α) (func : φ) (arg : α) : s.destroying ≠ 0 →
      Quiet s (.loading k func arg) k.back
  | loaded (k : Caller φ α) (func : φ) (arg : α) :
      Quiet s (.loading k func arg) (.submitLocking k func arg)
  | submitLocked (k : Caller φ α) (func : φ) (arg : α) :
      Quiet s (.submitLocking k func arg) (.submitChecking k func arg)
  | refused (k : Caller φ α) (func : φ) (arg : α) : s.destroying ≠ 0 →
      Quiet s (.submitChecking k func arg) (.submitUnlocking k)
  | putLocked (k : PutCaller φ α) (item : Option (WorkItem φ α)) :
      Quiet s (.putting k item .locking) (.putting k item .inserting)
  | putSignaled (k : PutCaller φ α) (item : Option (WorkItem φ α)) :
      Quiet s (.putting k item .signaling) (.putting k item .unlocking)
  | putUnlocked (k : PutCaller φ α) (item : Option (WorkItem φ α)) :
      Quiet s (.putting k item .unlocking) k.back
  | submitUnlocked (k : Caller φ α) : Quiet s (.submitUnlocking k) k.back
  | destroyCall : Quiet s .idle .exchanging
  | lost : s.destroying ≠ 0 → Quiet s .exchanging .queueDestroying
  | destroyLocked : Quiet s .destroyLocking (.filling 0)
  | fill (i : ℕ) : i < nthreads → Quiet s (.filling i) (.putting (.destroy i) none .locking)
  | filled (i : ℕ) : ¬ i < nthreads → Quiet s (.filling i) .destroyUnlocking
  | destroyUnlocked : Quiet s .destroyUnlocking (.joining 0)
  | join (i : Fin nthreads) : s.pc (.worker i) = .finished →
      Quiet s (.joining i) (.joining (i + 1))
  | joined (i : ℕ) : ¬ i < nthreads → Quiet s (.joining i) .queueDestroying
  | queueDestroy : Quiet s .queueDestroying .lockDestroying
  | lockDestroy : Quiet s .lockDestroying .idle
  | getLocked : Quiet s .getLocking .getChecking
  | getEmpty : Quiet s .getChecking .getWaiting
  | getFound : Quiet s .getChecking .getRemoving
  | getRelocked : Quiet s .getWaiting .getChecking
  | getUnlocked (item : Option (WorkItem φ α)) : Quiet s (.getUnlocking item) (.testing item)
  | stop : Quiet s (.testing none) .finished
  | take (x : WorkItem φ α) : Quiet s (.testing (some x)) (.calling x)
  | returned (x : WorkItem φ α) : Quiet s (.running x) .getLocking

/-- The steps of a thread, by what they do to the shared data. -/
inductive Moves (s : State κ φ α) (p : Thread κ) : State κ φ α → Prop
  | quiet (q : Pc φ α) (queue : Monitor (Thread κ) Cond) (lock : Monitor (Thread κ) Empty)
      (queueDestroyed lockDestroyed : ℕ) : Quiet s (s.pc p) q →
      Moves s p ({ s with
        queue := queue
        lock := lock
        queueDestroyed := queueDestroyed
        lockDestroyed := lockDestroyed }.goto p q)
  | win : s.destroying = 0 → s.pc p = .exchanging →
      Moves s p ({ s with destroying := 1, winner := some p }.goto p .destroyLocking)
  | create (k : Caller φ α) (func : φ) (arg : α) : s.destroying = 0 →
      s.pc p = .submitChecking k func arg →
      Moves s p ({ s with created := s.created + 1 }.goto p
        (.putting (.submit k) (some ⟨s.created, func, arg⟩) .locking))
  | insert (k : PutCaller φ α) (item : Option (WorkItem φ α)) :
      s.pc p = .putting k item .inserting →
      Moves s p ((s.insert item).goto p (.putting k item .signaling))
  | remove (item : Option (WorkItem φ α)) (rest : List (Option (WorkItem φ α))) :
      s.list = item :: rest → s.pc p = .getRemoving →
      Moves s p ((s.remove p rest item).goto p (.getUnlocking item))
  | call (x : WorkItem φ α) : s.pc p = .calling x →
      Moves s p ({ s with called := Function.update s.called p (s.called p ++ [x]) }.goto p
        (.running x))

/-- A step that only moves a thread and works on a lock. -/
theorem Moves.of_quiet {s : State κ φ α} {p : Thread κ} {q q' : Pc φ α} (hpc : s.pc p = q)
    (hquiet : Quiet s q q') (queue : Monitor (Thread κ) Cond) (lock : Monitor (Thread κ) Empty)
    (queueDestroyed lockDestroyed : ℕ) :
    Moves s p ({ s with
      queue := queue
      lock := lock
      queueDestroyed := queueDestroyed
      lockDestroyed := lockDestroyed }.goto p q') :=
  .quiet q' queue lock queueDestroyed lockDestroyed (hpc ▸ hquiet)

/-- Every action is one of these steps. -/
theorem Executed.moves {s t : State κ φ α} {p : Thread κ} (h : Executed s p (s.pc p) t) :
    Moves s p t := by
  generalize hp : s.pc p = old at h
  cases h with
  | submitCall func arg => exact .of_quiet hp (.submitCall func arg) _ _ _ _
  | submitInside x func arg => exact .of_quiet hp (.submitInside x func arg) _ _ _ _
  | refusedEarly k func arg hset => exact .of_quiet hp (.refusedEarly k func arg hset) _ _ _ _
  | loaded k func arg => exact .of_quiet hp (.loaded k func arg) _ _ _ _
  | submitLocked k func arg => exact .of_quiet hp (.submitLocked k func arg) _ _ _ _
  | accepted k func arg hclear => exact .create k func arg hclear hp
  | refused k func arg hset => exact .of_quiet hp (.refused k func arg hset) _ _ _ _
  | putLocked k item => exact .of_quiet hp (.putLocked k item) _ _ _ _
  | inserted k item => exact .insert k item hp
  | signaled k item w m => exact .of_quiet hp (.putSignaled k item) _ _ _ _
  | putUnlocked k item => exact .of_quiet hp (.putUnlocked k item) _ _ _ _
  | submitUnlocked k => exact .of_quiet hp (.submitUnlocked k) _ _ _ _
  | destroyCall => exact .of_quiet hp .destroyCall _ _ _ _
  | won hclear => exact .win hclear hp
  | lost hset => exact .of_quiet hp (.lost hset) _ _ _ _
  | destroyLocked => exact .of_quiet hp .destroyLocked _ _ _ _
  | fill i hi => exact .of_quiet hp (.fill i hi) _ _ _ _
  | filled i hi => exact .of_quiet hp (.filled i hi) _ _ _ _
  | destroyUnlocked => exact .of_quiet hp .destroyUnlocked _ _ _ _
  | join i hfinished => exact .of_quiet hp (.join i hfinished) _ _ _ _
  | joined i hi => exact .of_quiet hp (.joined i hi) _ _ _ _
  | queueDestroy => exact .of_quiet hp .queueDestroy _ _ _ _
  | lockDestroy => exact .of_quiet hp .lockDestroy _ _ _ _
  | getLocked => exact .of_quiet hp .getLocked _ _ _ _
  | getEmpty => exact .of_quiet hp .getEmpty _ _ _ _
  | getFound => exact .of_quiet hp .getFound _ _ _ _
  | getRelocked => exact .of_quiet hp .getRelocked _ _ _ _
  | woken => exact .of_quiet hp (.still _) _ _ _ _
  | removed item rest hlist => exact .remove item rest hlist hp
  | getUnlocked item => exact .of_quiet hp (.getUnlocked item) _ _ _ _
  | stop => exact .of_quiet hp .stop _ _ _ _
  | take x => exact .of_quiet hp (.take x) _ _ _ _
  | called x => exact .call x hp
  | returned x => exact .of_quiet hp (.returned x) _ _ _ _

end SistemasOperativos.ThreadPool
