import SistemasOperativos.ThreadPoolWakeups

/-!
# Shutting the thread pool down cannot get stuck

Nodes are owed to workers that are awake, and all nulls are in the list or
taken, so the workers never all sleep before the last of them has stopped. A
worker that is awake can go on, or waits for a mutex whose holder can.
-/

namespace SistemasOperativos.ThreadPool

open TransitionRuns ConditionMonitor Census

variable {κ φ α : Type*} [DecidableEq κ]

/-- The mutexes of the pool. -/
inductive Mutex
  /-- `lock`. -/
  | pool
  /-- `queue.lock`. -/
  | queue
  deriving DecidableEq, Repr

/-- The thread that holds a mutex. -/
def State.holder (s : State κ φ α) : Mutex → Option (Thread κ)
  | .pool => s.lock.holder
  | .queue => s.queue.holder

/-- The mutex that the next statement of a thread takes. -/
def Pc.wants : Pc φ α → Option Mutex
  | .submitLocking _ _ _ | .destroyLocking => some .pool
  | .putting _ _ .locking | .getLocking | .getWaiting => some .queue
  | _ => none

/-- The next statement of a thread can be executed. -/
def State.CanStep (s : State κ φ α) (p : Thread κ) : Prop :=
  (∃ t, s.next (p, .run) = some t) ∨ ∃ w t, s.next (p, .signal w) = some t

section Progress

variable {s : State κ φ α} {p : Thread κ}

/-- The holder of the queue's lock is never stuck. -/
theorem WakeInv.holder_canStep (h : WakeInv s) (hp : (s.pc p).queueHeld = true) : s.CanStep p := by
  have hheld : s.queue.holder = some p := (h.holding p).mp hp
  cases hpc : s.pc p with
  | putting k item stage =>
    cases stage with
    | locking =>
      rw [hpc] at hp
      cases hp
    | inserting => exact .inl ⟨_, by simp only [State.next, State.run, hpc, State.put]; rfl⟩
    | signaling =>
      right
      rcases s.asleep.eq_empty_or_nonempty with hnobody | ⟨r, hr⟩
      · refine ⟨none, { s with queue := s.queue }.goto p (.putting k item .unlocking), ?_⟩
        have hcard : (s.queue.asleep .hasItems).card = 0 := Finset.card_eq_zero.mpr hnobody
        simp only [State.next, hpc, Monitor.signal, if_pos hcard, Option.map_some]
      · have hmem : r ∈ s.queue.asleep .hasItems := hr
        exact ⟨some r, _, by
          simp only [State.next, hpc, Monitor.signal, if_pos hmem, Option.map_some]; rfl⟩
    | unlocking =>
      exact .inl ⟨_, by
        simp only [State.next, State.run, hpc, State.put, Monitor.unlock_of_held hheld, Option.map_some]
        rfl⟩
  | getChecking =>
    left
    by_cases hempty : s.list.isEmpty = true
    · exact ⟨_, by
        simp only [State.next, State.run, hpc, if_pos hempty, Monitor.wait, if_pos hheld,
          Option.map_some]; rfl⟩
    · exact ⟨_, by simp only [State.next, State.run, hpc, if_neg hempty]; rfl⟩
  | getRemoving =>
    obtain ⟨item, rest, hlist⟩ := List.exists_cons_of_ne_nil (h.found p hpc)
    exact .inl ⟨_, by simp only [State.next, State.run, hpc, hlist]; rfl⟩
  | getUnlocking item =>
    exact .inl ⟨_, by
      simp only [State.next, State.run, hpc, Monitor.unlock_of_held hheld, Option.map_some]; rfl⟩
  | _ =>
    rw [hpc] at hp
    cases hp

/-- Only a thread that puts a node takes a mutex while it holds one. -/
theorem WakeInv.ordered (h : WakeInv s) (hlocked : Locked s) {held wanted : Mutex}
    (hheld : s.holder held = some p) (hwants : (s.pc p).wants = some wanted) :
    held = .pool ∧ wanted = .queue := by
  have hinside : held = .pool ∧ (s.pc p).lockHeld = true ∨
      held = .queue ∧ (s.pc p).queueHeld = true := by
    cases held with
    | pool => exact .inl ⟨rfl, (hlocked p).mpr hheld⟩
    | queue => exact .inr ⟨rfl, (h.holding p).mpr hheld⟩
  cases hpc : s.pc p with
  | putting k item stage =>
    rw [hpc] at hwants hinside
    cases stage with
    | locking =>
      cases hwants
      rcases hinside with ⟨rfl, -⟩ | ⟨-, hq⟩
      · exact ⟨rfl, rfl⟩
      · cases hq
    | _ => cases hwants
  | submitLocking | destroyLocking | getLocking | getWaiting =>
    rw [hpc] at hinside
    rcases hinside with ⟨-, hq⟩ | ⟨-, hq⟩ <;> cases hq
  | _ =>
    rw [hpc] at hwants
    cases hwants

/-- With the queue's lock free and a worker asleep, the list has no more nodes than
workers that were woken and have not looked at it again. -/
theorem WakeInv.woken_le (h : WakeInv s) (hplaced : Placed s) (hfree : s.queue.holder = none)
    (hsome : s.asleep.Nonempty) : ∃ woken : Finset (Thread κ),
      (∀ p, p ∈ woken ↔ p.isWorker = true ∧ s.pc p = .getWaiting ∧ p ∉ s.asleep) ∧
        s.list.length ≤ woken.card := by
  obtain ⟨n, ⟨T, hT, rfl⟩, hle⟩ := h.covered
  refine ⟨T, fun p => (hT p).trans ?_, Int.ofNat_le.mp (hle hsome)⟩
  have hout : (s.pc p).queueHeld = false := by
    refine Bool.eq_false_iff.mpr fun hin => ?_
    have hheld := (h.holding p).mp hin
    rw [hfree] at hheld
    cases hheld
  constructor
  · intro howed
    cases hpc : s.pc p with
    | getWaiting =>
      rw [State.place, hpc] at howed
      have hawake : p ∉ s.asleep := by
        intro hin
        rw [decide_eq_true hin] at howed
        cases howed
      refine ⟨?_, rfl, hawake⟩
      rw [← hplaced.role p, hpc]
      rfl
    | putting k item stage =>
      rw [State.place, hpc] at howed
      rw [hpc] at hout
      cases stage with
      | signaling => cases hout
      | _ => cases howed
    | getChecking | getRemoving =>
      rw [hpc] at hout
      cases hout
    | _ =>
      rw [State.place, hpc] at howed
      cases howed
  · rintro ⟨-, hpc, hawake⟩
    rw [place_awake hawake, hpc]
    rfl

end Progress

section Joining

variable {s : State κ φ α} {p r : Thread κ} {i : ℕ}

omit [DecidableEq κ] in
/-- The thread that joins set the flag. -/
theorem Flag.joining_winner (h : Flag s) (hp : s.pc p = .joining i) : s.winner = some p :=
  h.winning p (by rw [hp]; rfl)

omit [DecidableEq κ] in
/-- All nulls are put before the joins. -/
theorem Flag.joining_nulls (h : Flag s) (hp : s.pc p = .joining i) : s.nulls = nthreads := by
  rw [h.nulls_eq, State.nullsDue, h.joining_winner hp]
  dsimp only
  rw [hp]
  rfl

omit [DecidableEq κ] in
/-- Nobody else is between the exchange and the end of the joins. -/
theorem Flag.joining_only (h : Flag s) (hp : s.pc p = .joining i)
    (hr : (s.pc r).winning = true) : r = p :=
  Option.some.inj ((h.winning r hr).symm.trans (h.joining_winner hp))

omit [DecidableEq κ] in
/-- Nobody puts a node during the joins. -/
theorem Flag.joining_noPut (h : Flag s) (hp : s.pc p = .joining i) (k : PutCaller φ α)
    (item : Option (WorkItem φ α)) (stage : PutStage) : s.pc r ≠ .putting k item stage :=
  h.noPut (h.joining_winner hp) (by rw [hp]; rfl) (by rw [hp]; exact nofun) k item stage

/-- During the joins the holder of the pool's lock is not stuck. -/
theorem Inv.holder_canStep (h : Inv s) (hp : s.pc p = .joining i)
    (hheld : s.lock.holder = some r) : s.CanStep r := by
  have hinside : (s.pc r).lockHeld = true := (h.locked r).mpr hheld
  have hother : (s.pc r).winning = true → r = p := h.flag.joining_only hp
  cases hr : s.pc r with
  | submitChecking k func arg =>
    left
    by_cases hclear : s.destroying = 0
    · exact ⟨_, by simp only [State.next, State.run, hr, if_pos hclear]; rfl⟩
    · exact ⟨_, by simp only [State.next, State.run, hr, if_neg hclear]; rfl⟩
  | submitUnlocking k =>
    exact .inl ⟨_, by
      simp only [State.next, State.run, hr, Monitor.unlock_of_held hheld, Option.map_some]; rfl⟩
  | putting k item stage => exact absurd hr (h.flag.joining_noPut hp k item stage)
  | filling | destroyUnlocking =>
    rw [hother (by rw [hr]; rfl), hp] at hr
    cases hr
  | _ =>
    rw [hr] at hinside
    cases hinside

/-- During the joins the holder of the queue's lock is a worker. -/
theorem Inv.queueHolder_worker (h : Inv s) (hw : WakeInv s) (hp : s.pc p = .joining i)
    (hheld : s.queue.holder = some r) : ∃ j, r = .worker j := by
  have hinside : (s.pc r).queueHeld = true := (hw.holding r).mpr hheld
  have hrole : r.isWorker = true := by
    rw [← h.placed.role r]
    cases hr : s.pc r with
    | putting k item stage => exact absurd hr (h.flag.joining_noPut hp k item stage)
    | getChecking | getRemoving | getUnlocking => rfl
    | _ =>
      rw [hr] at hinside
      cases hinside
  cases r with
  | worker j => exact ⟨j, rfl⟩
  | client c => cases hrole

/-- With the queue's lock free, a worker that has not finished and is awake goes on,
or waits for the pool's lock. -/
theorem Inv.awake_progress (h : Inv s) (hp : s.pc p = .joining i)
    (hfree : s.queue.holder = none) (hw : WakeInv s) {j : Fin nthreads}
    (hunfinished : s.pc (.worker j) ≠ .finished) (hawake : .worker j ∉ s.asleep) :
    s.CanStep (.worker j) ∨ ∃ l r, (s.pc (.worker j)).wants = some l ∧ s.holder l = some r ∧
      s.CanStep r := by
  have hrole : (s.pc (.worker j)).byWorker = true := h.placed.role _
  have hout : (s.pc (.worker j)).queueHeld = false := by
    refine Bool.eq_false_iff.mpr fun hin => ?_
    have hheld := (hw.holding _).mp hin
    rw [hfree] at hheld
    cases hheld
  cases hpc : s.pc (.worker j) with
  | loading k func arg =>
    left
    left
    by_cases hset : s.destroying ≠ 0
    · exact ⟨_, by simp only [State.next, State.run, hpc, if_pos hset]; rfl⟩
    · exact ⟨_, by simp only [State.next, State.run, hpc, if_neg hset]; rfl⟩
  | submitLocking k func arg =>
    cases hheld : s.lock.holder with
    | none =>
      left
      exact .inl ⟨_, by
        simp only [State.next, State.run, hpc, Monitor.lock_of_free hheld, Option.map_some]; rfl⟩
    | some r => exact .inr ⟨.pool, r, rfl, hheld, h.holder_canStep hp hheld⟩
  | submitChecking | submitUnlocking =>
    have hinside : (s.pc (.worker j)).lockHeld = true := by rw [hpc]; rfl
    exact .inl (h.holder_canStep hp ((h.locked _).mp hinside))
  | putting k item stage => exact absurd hpc (h.flag.joining_noPut hp k item stage)
  | getLocking =>
    left
    exact .inl ⟨_, by
      simp only [State.next, State.run, hpc, Monitor.lock_of_free hfree, Option.map_some]; rfl⟩
  | getWaiting =>
    have hmem : .worker j ∉ s.queue.asleep .hasItems := hawake
    left
    exact .inl ⟨_, by
      simp only [State.next, State.run, hpc, Monitor.relock, if_neg hmem,
        Monitor.lock_of_free hfree, Option.map_some]; rfl⟩
  | getChecking | getRemoving | getUnlocking =>
    rw [hpc] at hout
    cases hout
  | testing item =>
    left
    left
    cases item with
    | none => exact ⟨_, by simp only [State.next, State.run, hpc]; rfl⟩
    | some x => exact ⟨_, by simp only [State.next, State.run, hpc]; rfl⟩
  | calling | running => exact .inl (.inl ⟨_, by simp only [State.next, State.run, hpc]; rfl⟩)
  | finished => exact absurd hpc hunfinished
  | _ =>
    rw [hpc] at hrole
    cases hrole

/-- During the joins some unfinished worker is awake: were all of them asleep, no
node would be left, and all nulls would have been taken. -/
theorem Inv.somebody_awake (h : Inv s) (hw : WakeInv s) (hp : s.pc p = .joining i)
    {j : Fin nthreads} (hunfinished : s.pc (.worker j) ≠ .finished) :
    ∃ j, s.pc (.worker j) ≠ .finished ∧ .worker j ∉ s.asleep := by
  by_contra hall
  push Not at hall
  have hasleep := hall j hunfinished
  have hwaiting := hw.asleep _ hasleep
  have hfree : s.queue.holder = none := by
    by_contra hsome
    obtain ⟨r, hheld⟩ := Option.ne_none_iff_exists'.mp hsome
    obtain ⟨l, rfl⟩ := h.queueHolder_worker hw hp hheld
    have hinside : (s.pc (.worker l)).queueHeld = true := (hw.holding _).mpr hheld
    have hslept := hw.asleep _ (hall l fun he => by rw [he] at hinside; cases hinside)
    rw [hslept] at hinside
    cases hinside
  have hempty : s.list = [] := by
    obtain ⟨woken, hwoken, hle⟩ := hw.woken_le h.placed hfree ⟨_, hasleep⟩
    have hnone : woken = ∅ := by
      refine Finset.eq_empty_of_forall_notMem fun r hr => ?_
      obtain ⟨hworker, hpc, hawake⟩ := (hwoken r).mp hr
      cases r with
      | worker l => exact hawake (hall l (by rw [hpc]; exact nofun))
      | client c => cases hworker
    rw [hnone, Finset.card_empty] at hle
    exact List.length_eq_zero_iff.mp (Nat.le_zero.mp hle)
  obtain ⟨pending, k, m, hstock⟩ := h.stock
  have hk : k = 0 := by
    have hshape := congrArg List.length hstock.list_eq
    rw [hempty, List.length_append, List.length_replicate, List.length_nil] at hshape
    omega
  have hm : m = nthreads := by
    have hsum := hstock.nulls_eq
    rw [h.flag.joining_nulls hp] at hsum
    omega
  -- as many threads as there are workers have taken a null, and only workers do
  obtain ⟨T, hT, hcard⟩ := hstock.ended
  have hworkers : T ⊆ Finset.univ.image Thread.worker := by
    intro r hr
    have hended : (s.pc r).ended = true := (hT r).mp hr
    have hrole := h.placed.role r
    cases r with
    | worker l => exact Finset.mem_image_of_mem _ (Finset.mem_univ l)
    | client c =>
      cases hpc : s.pc (.client c) with
      | getUnlocking | testing | finished =>
        rw [hpc] at hrole
        cases hrole
      | _ =>
        rw [hpc] at hended
        cases hended
  have hfull : T = Finset.univ.image Thread.worker := by
    refine Finset.eq_of_subset_of_card_le hworkers ?_
    rw [hcard, hm]
    exact Finset.card_image_le.trans_eq (Finset.card_fin nthreads)
  have hmem : .worker j ∈ T := by
    rw [hfull]
    exact Finset.mem_image_of_mem _ (Finset.mem_univ j)
  have hended := (hT (.worker j)).mp hmem
  rw [hwaiting] at hended
  cases hended

/-- During the joins some worker that has not finished goes on, or the holder of the
mutex that it waits for does. -/
theorem Inv.progress (h : Inv s) (hw : WakeInv s) (hp : s.pc p = .joining i) {j : Fin nthreads}
    (hunfinished : s.pc (.worker j) ≠ .finished) :
    ∃ j, s.pc (.worker j) ≠ .finished ∧ (s.CanStep (.worker j) ∨
      ∃ l r, (s.pc (.worker j)).wants = some l ∧ s.holder l = some r ∧ s.CanStep r) := by
  cases hheld : s.queue.holder with
  | none =>
    obtain ⟨l, hl, hawake⟩ := h.somebody_awake hw hp hunfinished
    exact ⟨l, hl, h.awake_progress hp hheld hw hl hawake⟩
  | some r =>
    have hinside : (s.pc r).queueHeld = true := (hw.holding r).mpr hheld
    obtain ⟨l, rfl⟩ := h.queueHolder_worker hw hp hheld
    refine ⟨l, fun he => ?_, .inl (hw.holder_canStep hinside)⟩
    rw [he] at hinside
    cases hinside

end Joining

/-- Shutting the pool down cannot get stuck. -/
structure Unstuck (s : State κ φ α) : Prop where
  /-- With the queue's lock free and a worker asleep, every node of the list has a
  worker that was woken and has not looked at the list again. -/
  woken : s.queue.holder = none → s.asleep.Nonempty → ∃ woken : Finset (Thread κ),
    (∀ p, p ∈ woken ↔ p.isWorker = true ∧ s.pc p = .getWaiting ∧ p ∉ s.asleep) ∧
      s.list.length ≤ woken.card
  /-- A thread that holds a mutex only ever takes the queue's, and holds the pool's. -/
  ordered : ∀ p held wanted, s.holder held = some p → (s.pc p).wants = some wanted →
    held = .pool ∧ wanted = .queue
  /-- While a join waits for a worker, some worker that has not finished goes on, or
  the holder of the mutex that it waits for does. -/
  progress : ∀ p (i : Fin nthreads), s.pc p = .joining i → s.pc (.worker i) ≠ .finished →
    ∃ j, s.pc (.worker j) ≠ .finished ∧ (s.CanStep (.worker j) ∨
      ∃ l r, (s.pc (.worker j)).wants = some l ∧ s.holder l = some r ∧ s.CanStep r)
  /-- The workers that have not finished are then not all asleep. -/
  awake : ∀ p (i : Fin nthreads), s.pc p = .joining i → s.pc (.worker i) ≠ .finished →
    ∃ j, s.pc (.worker j) ≠ .finished ∧ .worker j ∉ s.asleep

/-- In every interleaving of submitters, workers and destroyers, shutting the pool
down cannot get stuck. -/
theorem pool_unstuck {s : State κ φ α} (hs : (pool κ φ α).Reachable s) : Unstuck s := by
  have h := inv_reachable hs
  have hw := wakeInv_reachable hs
  constructor
  · exact fun hfree hsome => hw.woken_le h.placed hfree hsome
  · exact fun p held wanted hheld hwants => hw.ordered h.locked hheld hwants
  · exact fun p i hp hunfinished => h.progress hw hp hunfinished
  · exact fun p i hp hunfinished => h.somebody_awake hw hp hunfinished

/-- A client puts all nulls while no worker has run, and joins. -/
theorem pool_unstuck_joining : ∃ s : State Unit ℕ ℕ,
    s.pc (.client ()) = .joining 0 ∧ s.pc (.worker 0) = .getLocking ∧ Unstuck s := by
  have hstart : (pool Unit ℕ ℕ).Reachable initial := .start rfl
  obtain ⟨s, hs, hfound⟩ := hstart.exists_of_any
    ([(.client (), .destroy), (.client (), .run), (.client (), .run)] ++
      (List.replicate nthreads [(.client (), .run), (.client (), .run), (.client (), .run),
        (.client (), .signal none), (.client (), .run)]).flatten ++
      [(.client (), .run), (.client (), .run)])
    (p := fun s => match s.pc (.client ()), s.pc (.worker 0) with
      | .joining 0, .getLocking => true
      | _, _ => false) (by decide +kernel)
  split at hfound
  next hclient hworker => exact ⟨s, hclient, hworker, pool_unstuck hs⟩
  next => cases hfound

end SistemasOperativos.ThreadPool
