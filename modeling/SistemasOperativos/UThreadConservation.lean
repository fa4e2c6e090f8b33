import Mathlib.Tactic
import SistemasOperativos.UThread
import SistemasOperativos.TokenPlaces

/-!
# Where every user thread is

A created and not yet exited thread is the running thread, or is linked once
in the ready queue, or has its wait block linked once in one synchronizer.
Each operation of the library moves threads between these places. The ledger
is kept by one location function, and the switch to the next thread is
treated once for all operations that end with it.
-/

namespace SistemasOperativos.UThreadConservation

open TransitionRuns TokenPlaces UThread

variable {ι ε : Type} [DecidableEq ι] [DecidableEq ε]

/-- The places where a thread can be. -/
inductive Place (ι ε : Type) where
  | running
  | ready
  | sem (s : ι)
  | event (e : ε)
  deriving DecidableEq

/-- How often a thread is linked in a place. The list of a signaled event is
left behind by `event_set`, and no longer says who waits. -/
def occ (σ : State ι ε) (t : PUThread) : Place ι ε → ℕ
  | .running => σ.runningThread.toList.count t
  | .ready => σ.readyQueue.count t
  | .sem s => ((σ.sems s).waiters.map SemWaitBlock.thread).count t
  | .event e => bif (σ.events e).signaled then 0 else (σ.events e).waiters.count t

/-- The state as seen while no thread runs. -/
def parked (σ : State ι ε) : State ι ε := { σ with runningThread := none }

/-- Putting a thread in the ready queue adds one occurrence there. -/
theorem occ_insertReady (cause : Cause ι ε) (t : PUThread) (σ : State ι ε) (u : PUThread)
    (k : Place ι ε) :
    occ (insertReady cause t σ) u k = occ σ u k + if u = t ∧ .ready = k then 1 else 0 := by
  cases k with
  | ready =>
    simp only [occ, insertReady, List.count_append, and_true]
    by_cases h : u = t
    · simp [h]
    · simp [h, Ne.symm h]
  | running | sem | event =>
    rw [if_neg (by simp)]
    rfl

/-- Threads appended to the ready queue so far, in order. -/
def appendedThreads (σ : State ι ε) : List PUThread :=
  σ.log.filterMap fun
    | .appended t _ _ => some t
    | _ => none

/-- Threads taken from the ready queue to run so far, in order. -/
def dispatchedThreads (σ : State ι ε) : List PUThread :=
  σ.log.filterMap fun
    | .dispatched t => some t
    | _ => none

/-- The threads that the steps of a run create. -/
def createdThreads (trace : List (Transition (State ι ε) (Command ι ε))) : List ℕ :=
  trace.filterMap fun x =>
    match x.label with
    | .create b => some b
    | .call (.utCreate b) => some b
    | _ => none

/-- The user threads that call `ut_exit` in the steps of a run. -/
def exitedThreads (trace : List (Transition (State ι ε) (Command ι ε))) : List ℕ :=
  trace.filterMap fun x =>
    match x.source.runningThread, x.label with
    | some (.user b), .call .utExit => some b
    | _, _ => none

/-- No thread is lost, duplicated or counted wrongly. -/
structure Conserved (σ : State ι ε) (loc : PUThread → Option (Place ι ε)) : Prop where
  /-- Every thread is once in its place and nowhere else. -/
  placed : Placed (occ σ) loc
  /-- The user threads that have a place are those created and not yet exited. -/
  allocated : ∀ b, (loc (.user b)).isSome ↔ b ∈ σ.descriptors
  /-- No descriptor is allocated twice. -/
  nodup : σ.descriptors.Nodup
  /-- The counter counts them. -/
  counted : σ.numberOfThreads = σ.descriptors.length
  /-- The main thread is never linked anywhere. -/
  proxy : ∀ k, loc .main = some k → k = .running
  /-- While some thread runs, `main_thread` points to the proxy. -/
  inside : σ.runningThread ≠ none → σ.mainThread = some .main
  /-- The main thread only runs when no user thread is ready. -/
  drained : σ.runningThread = some .main → σ.readyQueue = []
  /-- Dispatch follows the order of the appends. -/
  dispatchOrder : appendedThreads σ = dispatchedThreads σ ++ σ.readyQueue

/-- What a switch to the next thread does, whichever routine makes it. -/
structure SwitchedFrom (σ σ' : State ι ε) : Prop where
  ready : σ'.readyQueue = σ.readyQueue.tail
  running : σ'.runningThread = (extractNextThread σ).1
  main : σ'.mainThread = σ.mainThread
  number : σ'.numberOfThreads = σ.numberOfThreads
  descriptors : σ'.descriptors = σ.descriptors
  sems : σ'.sems = σ.sems
  events : σ'.events = σ.events
  log : σ'.log = (extractNextThread σ).2.log

omit [DecidableEq ι] [DecidableEq ε] in
theorem schedule_switchedFrom (frame : Frame ι ε) (σ : State ι ε) :
    SwitchedFrom σ (schedule frame σ) := by
  constructor <;> simp

/-- A switch with an empty ready queue brings the main thread back. -/
theorem placed_switch_main {σ σ' : State ι ε} {loc : PUThread → Option (Place ι ε)}
    (hp : Placed (occ (parked σ)) loc) (hmain : σ.mainThread = some .main)
    (hfree : loc .main = none) (hs : SwitchedFrom σ σ') (hq : σ.readyQueue = []) :
    σ'.runningThread = some .main ∧
      Placed (occ σ') (Function.update loc .main (some .running)) := by
  have hn : σ'.runningThread = some .main := by
    simp [hs.running, extractNextThread, hq, hmain]
  refine ⟨hn, hp.update .main _ fun u k => ?_⟩
  by_cases hu : u = .main
  · cases k <;> simp [occ, parked, hn, hs.ready, hs.sems, hs.events, hq, hfree, hu]
  · cases k <;> simp [occ, parked, hn, hs.ready, hs.sems, hs.events, hq, hu, Ne.symm hu]

/-- A switch with a ready thread moves the head of the queue to the processor. -/
theorem placed_switch_head {σ σ' : State ι ε} {loc : PUThread → Option (Place ι ε)}
    (hp : Placed (occ (parked σ)) loc) (hs : SwitchedFrom σ σ')
    {t : PUThread} {rest : List PUThread} (hq : σ.readyQueue = t :: rest) :
    σ'.runningThread = some t ∧ loc t = some .ready ∧
      Placed (occ σ') (Function.update loc t (some .running)) := by
  have hn : σ'.runningThread = some t := by
    simp [hs.running, extractNextThread, hq, record]
  have hloc : loc t = some .ready := hp.pos_iff.mp (by simp [occ, parked, hq])
  refine ⟨hn, hloc, hp.update t _ fun u k => ?_⟩
  by_cases hu : u = t
  · cases k <;> simp [occ, parked, hn, hs.ready, hs.sems, hs.events, hq, hloc, hu]
  · cases k <;> simp [occ, parked, hn, hs.ready, hs.sems, hs.events, hq, hu, Ne.symm hu]

/-- A switch keeps conservation, once the thread that gives up the processor
has been put elsewhere. -/
theorem conserved_switch {σ σ' : State ι ε} {loc : PUThread → Option (Place ι ε)}
    (h : Conserved (parked σ) loc) (hmain : σ.mainThread = some .main)
    (hs : SwitchedFrom σ σ') : ∃ loc', Conserved σ' loc' := by
  have hfree : loc .main = none := by
    cases hm : loc .main with
    | none => rfl
    | some k =>
      have hk := h.proxy k hm
      have hpos := h.placed.pos_iff.mpr hm
      simp [hk, occ, parked] at hpos
  have horder : appendedThreads σ = dispatchedThreads σ ++ σ.readyQueue := h.dispatchOrder
  cases hq : σ.readyQueue with
  | nil =>
    obtain ⟨hn, hplaced⟩ := placed_switch_main h.placed hmain hfree hs hq
    have hlog : σ'.log = σ.log := by rw [hs.log, extractNextThread, hq]
    refine ⟨_, hplaced, fun b => ?_, ?_, ?_, fun k hk => ?_, fun _ => ?_, fun _ => ?_, ?_⟩
    · rw [hs.descriptors, Function.update_of_ne (by simp)]
      exact h.allocated b
    · rw [hs.descriptors]
      exact h.nodup
    · rw [hs.number, hs.descriptors]
      exact h.counted
    · simpa using hk.symm
    · rw [hs.main, hmain]
    · rw [hs.ready, hq, List.tail_nil]
    · rw [hs.ready, appendedThreads, dispatchedThreads, hlog, hq]
      rw [hq] at horder
      exact horder
  | cons t rest =>
    obtain ⟨hn, hloc, hplaced⟩ := placed_switch_head h.placed hs hq
    have htm : t ≠ .main := by
      rintro rfl
      simp [hfree] at hloc
    have hlog : σ'.log = σ.log ++ [.dispatched t] := by
      rw [hs.log, extractNextThread, hq]
      rfl
    refine ⟨_, hplaced, fun b => ?_, ?_, ?_, fun k hk => ?_, fun _ => ?_, fun hr => ?_, ?_⟩
    · have hb : (loc (.user b)).isSome ↔ b ∈ σ.descriptors := h.allocated b
      rw [hs.descriptors]
      by_cases hbt : .user b = t
      · subst hbt
        simpa [hloc] using hb
      · rw [Function.update_of_ne hbt]
        exact hb
    · rw [hs.descriptors]
      exact h.nodup
    · rw [hs.number, hs.descriptors]
      exact h.counted
    · rw [Function.update_of_ne (Ne.symm htm), hfree] at hk
      cases hk
    · rw [hs.main, hmain]
    · rw [hn] at hr
      exact absurd (Option.some.inj hr) htm
    · have ha : appendedThreads σ' = appendedThreads σ := by
        simp [appendedThreads, hlog]
      have hd : dispatchedThreads σ' = dispatchedThreads σ ++ [t] := by
        simp [dispatchedThreads, hlog]
      rw [ha, hd, horder, hs.ready, hq]
      simp

/-- The running thread is linked somewhere else and the processor goes to the
next thread. -/
theorem conserved_suspend {σ σ₁ σ' : State ι ε} {loc : PUThread → Option (Place ι ε)} {b : ℕ}
    (h : Conserved σ loc) (hr : σ.runningThread = some (.user b)) (hs : SwitchedFrom σ₁ σ')
    (q : Place ι ε)
    (hocc : ∀ u k, occ (parked σ₁) u k =
      occ (parked σ) u k + if u = .user b ∧ q = k then 1 else 0)
    (hdescriptors : σ₁.descriptors = σ.descriptors)
    (hnumber : σ₁.numberOfThreads = σ.numberOfThreads)
    (hmain : σ₁.mainThread = σ.mainThread)
    (horder : appendedThreads σ₁ = dispatchedThreads σ₁ ++ σ₁.readyQueue) :
    ∃ loc', Conserved σ' loc' := by
  have hloc : loc (.user b) = some .running := h.placed.pos_iff.mp (by simp [occ, hr])
  have hb : b ∈ σ.descriptors := (h.allocated b).mp (by simp [hloc])
  have hpark : Conserved (parked σ₁) (Function.update loc (.user b) (some q)) := by
    refine ⟨h.placed.update _ _ fun u k => ?_, fun c => ?_, ?_, ?_, fun k hk => ?_,
      fun hn => absurd rfl hn, fun hn => by simp [parked] at hn, horder⟩
    · rw [hocc u k, hloc]
      by_cases hu : u = .user b
      · cases k <;> simp [occ, parked, hr, hu, Nat.add_comm]
      · cases k <;> simp [occ, parked, hr, hu, Ne.symm hu]
    · change _ ↔ c ∈ σ₁.descriptors
      rw [hdescriptors]
      by_cases hc : c = b
      · subst hc
        simpa using hb
      · rw [Function.update_of_ne (by simpa using hc)]
        exact h.allocated c
    · exact hdescriptors ▸ h.nodup
    · change σ₁.numberOfThreads = σ₁.descriptors.length
      rw [hnumber, hdescriptors, h.counted]
    · rw [Function.update_of_ne (by simp)] at hk
      exact h.proxy k hk
  exact conserved_switch hpark (hmain.trans (h.inside (by simp [hr]))) hs

/-- A thread that is nowhere else enters the ready queue. -/
theorem placed_insertReady {σ : State ι ε} {loc : PUThread → Option (Place ι ε)}
    (h : Placed (occ σ) loc) (cause : Cause ι ε) {t : PUThread} (ht : loc t = none) :
    Placed (occ (insertReady cause t σ)) (Function.update loc t (some .ready)) := by
  refine h.update t _ fun u k => ?_
  rw [occ_insertReady, ht]
  simp

omit [DecidableEq ι] [DecidableEq ε] in
/-- Appends are recorded in the order of the queue. -/
theorem order_insertReady {σ : State ι ε} (cause : Cause ι ε) (t : PUThread)
    (h : appendedThreads σ = dispatchedThreads σ ++ σ.readyQueue) :
    appendedThreads (insertReady cause t σ) =
      dispatchedThreads (insertReady cause t σ) ++ (insertReady cause t σ).readyQueue := by
  simp only [appendedThreads, dispatchedThreads, insertReady, List.filterMap_append,
    List.filterMap_cons, List.filterMap_nil, List.append_nil] at h ⊢
  rw [h, List.append_assoc]

/-- `ut_create` places one new thread in the ready queue. -/
theorem conserved_utCreate {σ : State ι ε} {loc : PUThread → Option (Place ι ε)} {b : ℕ}
    (h : Conserved σ loc) (hb : b ∉ σ.descriptors)
    (hmain : σ.runningThread ≠ some .main) : ∃ loc', Conserved (utCreate b σ) loc' := by
  have hloc : loc (.user b) = none := by
    simpa using mt (h.allocated b).mp hb
  let σ₁ : State ι ε := { σ with
    descriptors := b :: σ.descriptors
    context := Function.update σ.context (.user b) .internalStart
    numberOfThreads := σ.numberOfThreads + 1 }
  have hstart : Placed (occ σ₁) loc := h.placed
  have horder : appendedThreads σ₁ = dispatchedThreads σ₁ ++ σ₁.readyQueue := h.dispatchOrder
  have hplaced := placed_insertReady hstart .created hloc
  have hlogged := order_insertReady .created (.user b) horder
  refine ⟨_, hplaced, fun c => ?_, ?_, ?_, fun k hk => ?_, h.inside,
    fun hr => absurd hr hmain, hlogged⟩
  · change _ ↔ c ∈ b :: σ.descriptors
    by_cases hc : c = b
    · simp [hc]
    · rw [Function.update_of_ne (by simpa using hc), h.allocated c]
      simp [hc]
  · exact List.nodup_cons.mpr ⟨hb, h.nodup⟩
  · change σ.numberOfThreads + 1 = σ.descriptors.length + 1
    rw [h.counted]
  · rw [Function.update_of_ne (by simp)] at hk
    exact h.proxy k hk

/-- `ut_yield` moves the running thread to the tail of the ready queue. -/
theorem conserved_utYield {σ : State ι ε} {loc : PUThread → Option (Place ι ε)} {b : ℕ}
    (h : Conserved σ loc) (hr : σ.runningThread = some (.user b)) :
    ∃ loc', Conserved (utYield σ) loc' := by
  rw [utYield_eq hr]
  split
  · exact ⟨loc, h⟩
  · exact conserved_suspend h hr (schedule_switchedFrom _ _) .ready
      (fun u k => occ_insertReady .yielded (.user b) (parked σ) u k) rfl rfl rfl
      (order_insertReady _ _ h.dispatchOrder)

/-- `ut_exit` removes the running thread. -/
theorem conserved_utExit {σ : State ι ε} {loc : PUThread → Option (Place ι ε)} {b : ℕ}
    (h : Conserved σ loc) (hr : σ.runningThread = some (.user b)) :
    ∃ loc', Conserved (utExit σ) loc' := by
  have hloc : loc (.user b) = some .running := h.placed.pos_iff.mp (by simp [occ, hr])
  have hb : b ∈ σ.descriptors := (h.allocated b).mp (by simp [hloc])
  let σ₁ : State ι ε := { σ with
    numberOfThreads := σ.numberOfThreads - 1
    descriptors := σ.descriptors.erase b }
  have hpark : Conserved (parked σ₁) (Function.update loc (.user b) none) := by
    refine ⟨h.placed.update _ _ fun u k => ?_, fun c => ?_, h.nodup.erase b, ?_, fun k hk => ?_,
      fun hn => absurd rfl hn, fun hn => by simp [parked] at hn, h.dispatchOrder⟩
    · rw [hloc]
      by_cases hu : u = .user b
      · cases k <;> simp [occ, parked, σ₁, hr, hu]
      · cases k <;> simp [occ, parked, σ₁, hr, hu, Ne.symm hu]
    · change _ ↔ c ∈ σ.descriptors.erase b
      rw [h.nodup.mem_erase_iff]
      by_cases hc : c = b
      · simp [hc]
      · rw [Function.update_of_ne (by simpa using hc), h.allocated c]
        simp [hc]
    · change σ.numberOfThreads - 1 = (σ.descriptors.erase b).length
      rw [List.length_erase_of_mem hb, h.counted]
    · rw [Function.update_of_ne (by simp)] at hk
      exact h.proxy k hk
  refine conserved_switch hpark (h.inside (by simp [hr])) ?_
  obtain ⟨hready, hrunning, hmain, hnumber, hdescriptors, -, hsems, hevents, hlog⟩ :=
    utExit_fields σ hr
  refine ⟨hready, hrunning.trans ?_, hmain, hnumber, hdescriptors, hsems, hevents, hlog.trans ?_⟩
  · rw [extractNextThread_fst, extractNextThread_fst]
  · rw [extractNextThread_log, extractNextThread_log]

/-- `sem_wait` keeps the caller running or moves it to the semaphore's list. -/
theorem conserved_semWait {σ : State ι ε} {loc : PUThread → Option (Place ι ε)} {b : ℕ}
    (h : Conserved σ loc) (hr : σ.runningThread = some (.user b)) (s : ι) (units : ℤ) :
    ∃ loc', Conserved (semWait s units σ) loc' := by
  simp only [semWait, hr]
  split
  · refine ⟨loc, fun u k => ?_, h.allocated, h.nodup, h.counted, h.proxy, h.inside, h.drained, ?_⟩
    · rw [← h.placed u k]
      cases k with
      | sem s' => by_cases hs : s' = s <;> simp [occ, record, setSem, hs]
      | running | ready | event => rfl
    · simpa [appendedThreads, dispatchedThreads, record, setSem] using h.dispatchOrder
  · refine conserved_suspend h hr (schedule_switchedFrom _ _) (.sem s) (fun u k => ?_)
      rfl rfl rfl ?_
    · cases k with
      | sem s' =>
        by_cases hs : s' = s
        · subst hs
          by_cases hu : u = .user b
          · simp [occ, parked, record, setSem, hu]
          · simp [occ, parked, record, setSem, hu, Ne.symm hu]
        · simp [occ, parked, record, setSem, hs, Ne.symm hs]
      | running | ready | event => simp [occ, parked, record, setSem]
    · simpa [appendedThreads, dispatchedThreads, record, setSem] using h.dispatchOrder

/-- `event_wait` keeps the caller running or moves it to the event's list. -/
theorem conserved_eventWait {σ : State ι ε} {loc : PUThread → Option (Place ι ε)} {b : ℕ}
    (h : Conserved σ loc) (hr : σ.runningThread = some (.user b)) (e : ε) :
    ∃ loc', Conserved (eventWait e σ) loc' := by
  simp only [eventWait, hr]
  split
  next hsig =>
    refine conserved_suspend h hr (schedule_switchedFrom _ _) (.event e) (fun u k => ?_)
      rfl rfl rfl ?_
    · cases k with
      | event e' =>
        by_cases he : e' = e
        · subst he
          by_cases hu : u = .user b
          · simp [occ, parked, record, setEvent, hsig, hu]
          · simp [occ, parked, record, setEvent, hsig, hu, Ne.symm hu]
        · simp [occ, parked, record, setEvent, he, Ne.symm he]
      | running | ready | sem => simp [occ, parked, record, setEvent]
    · simpa [appendedThreads, dispatchedThreads, record, setEvent] using h.dispatchOrder
  next => exact ⟨loc, h⟩

/-- One round of the loop in `sem_post` moves the head waiter to the ready queue. -/
theorem conserved_release {σ : State ι ε} {loc : PUThread → Option (Place ι ε)}
    (h : Conserved σ loc) (hr : σ.runningThread ≠ some .main) {s : ι} {block : SemWaitBlock}
    {rest : List SemWaitBlock} (hw : (σ.sems s).waiters = block :: rest) (left limit : ℤ) :
    ∃ loc', Conserved (utActivate (.posted s) block.thread
      (record (.released s block.thread block.units)
        (setSem s ⟨rest, left, limit⟩ σ))) loc' := by
  have hloc : loc block.thread = some (.sem s) := h.placed.pos_iff.mp (by simp [occ, hw])
  have hmain : block.thread ≠ .main := by
    intro hm
    have hk := h.proxy _ (hm ▸ hloc)
    cases hk
  refine ⟨_, h.placed.update block.thread (some .ready) fun u k => ?_, fun c => ?_, h.nodup,
    h.counted, fun k hk => ?_, h.inside, fun hn => absurd hn hr, ?_⟩
  · rw [utActivate, occ_insertReady, hloc]
    cases k with
    | sem s' =>
      by_cases hs : s' = s
      · subst hs
        by_cases hu : u = block.thread
        · simp [occ, record, setSem, hw, hu]
        · simp [occ, record, setSem, hw, hu, Ne.symm hu]
      · simp [occ, record, setSem, hs, Ne.symm hs]
    | running | ready | event => simp [occ, record, setSem]
  · change _ ↔ c ∈ σ.descriptors
    rw [← h.allocated c]
    by_cases hc : .user c = block.thread
    · simp [hc, hloc]
    · rw [Function.update_of_ne hc]
  · rw [Function.update_of_ne (Ne.symm hmain)] at hk
    exact h.proxy k hk
  · refine order_insertReady _ _ ?_
    simpa [appendedThreads, dispatchedThreads, record, setSem] using h.dispatchOrder

/-- The whole loop of `sem_post` keeps conservation. -/
theorem conserved_semPostLoop {s : ι} (blocks : List SemWaitBlock) :
    ∀ {σ : State ι ε} {loc : PUThread → Option (Place ι ε)}, Conserved σ loc →
      σ.runningThread ≠ some .main → (σ.sems s).waiters = blocks →
      ∃ loc', Conserved (semPostLoop s blocks σ) loc' := by
  induction blocks with
  | nil => exact fun h _ _ => ⟨_, h⟩
  | cons block rest ih =>
    intro σ loc h hr hw
    rw [semPostLoop]
    split
    · split
      · exact ⟨loc, h⟩
      · obtain ⟨loc', h'⟩ := conserved_release h hr hw
          (wrapInt ((σ.sems s).units - block.units)) (σ.sems s).limit
        exact ih h' hr (by simp [utActivate, insertReady, record, setSem])
    · exact ⟨loc, h⟩

/-- Adding units to a semaphore moves no thread. -/
theorem conserved_deposit {σ : State ι ε} {loc : PUThread → Option (Place ι ε)}
    (h : Conserved σ loc) (s : ι) (units credited total : ℤ) :
    Conserved (record (.posted s σ.runningThread units credited)
      (setSem s { σ.sems s with units := total } σ)) loc := by
  refine ⟨fun u k => ?_, h.allocated, h.nodup, h.counted, h.proxy, h.inside, h.drained, ?_⟩
  · rw [← h.placed u k]
    cases k with
    | sem s' => by_cases hs : s' = s <;> simp [occ, record, setSem, hs]
    | running | ready | event => rfl
  · simpa [appendedThreads, dispatchedThreads, record, setSem] using h.dispatchOrder

/-- `sem_post` keeps conservation. -/
theorem conserved_semPost {σ : State ι ε} {loc : PUThread → Option (Place ι ε)}
    (h : Conserved σ loc) (hr : σ.runningThread ≠ some .main) (s : ι) (units : ℤ) :
    ∃ loc', Conserved (semPost s units σ) loc' := by
  have hdeposit := conserved_deposit h s units
    (clampedUnits (σ.sems s) units - (σ.sems s).units) (clampedUnits (σ.sems s) units)
  have hlinked := conserved_semPostLoop (s := s) _ hdeposit hr rfl
  simpa [semPost, record, setSem] using hlinked

omit [DecidableEq ι] [DecidableEq ε] in
/-- Activating a list of threads in order appends it and records it. -/
theorem activateAll_fields (cause : Cause ι ε) (ts : List PUThread) (σ : State ι ε) :
    let σ' := ts.foldl (fun σ t => utActivate cause t σ) σ
    σ'.readyQueue = σ.readyQueue ++ ts ∧ σ'.runningThread = σ.runningThread ∧
      σ'.mainThread = σ.mainThread ∧ σ'.numberOfThreads = σ.numberOfThreads ∧
      σ'.descriptors = σ.descriptors ∧ σ'.sems = σ.sems ∧ σ'.events = σ.events ∧
      appendedThreads σ' = appendedThreads σ ++ ts ∧
      dispatchedThreads σ' = dispatchedThreads σ := by
  induction ts generalizing σ with
  | nil => simp
  | cons t ts ih =>
    have h := ih (utActivate cause t σ)
    simpa [utActivate, insertReady, appendedThreads, dispatchedThreads] using h

omit [DecidableEq ι] in
/-- What `event_set` does: it appends every linked waiter and unlinks none. -/
theorem eventSet_fields (e : ε) (σ : State ι ε) :
    (eventSet e σ).readyQueue = σ.readyQueue ++ (σ.events e).waiters ∧
    (eventSet e σ).runningThread = σ.runningThread ∧
    (eventSet e σ).mainThread = σ.mainThread ∧
    (eventSet e σ).numberOfThreads = σ.numberOfThreads ∧
    (eventSet e σ).descriptors = σ.descriptors ∧ (eventSet e σ).sems = σ.sems ∧
    (eventSet e σ).events =
      Function.update σ.events e { σ.events e with signaled := true } ∧
    appendedThreads (eventSet e σ) = appendedThreads σ ++ (σ.events e).waiters ∧
    dispatchedThreads (eventSet e σ) = dispatchedThreads σ :=
  activateAll_fields (.signaled e) (σ.events e).waiters
    (setEvent e { σ.events e with signaled := true } σ)

omit [DecidableEq ι] in
/-- `event_set` suspends nobody. -/
theorem eventSet_context (e : ε) (σ : State ι ε) : (eventSet e σ).context = σ.context := by
  have hall : ∀ (ts : List PUThread) (σ : State ι ε),
      (ts.foldl (fun σ t => utActivate (.signaled e) t σ) σ).context = σ.context := by
    intro ts
    induction ts with
    | nil => exact fun _ => rfl
    | cons t rest ih => exact fun σ => ih _
  exact hall _ _

/-- `event_set` moves every waiter of the event to the ready queue, provided
it is not called again on an event that was left with wait blocks. -/
theorem conserved_eventSet {σ : State ι ε} {loc : PUThread → Option (Place ι ε)}
    (h : Conserved σ loc) (hr : σ.runningThread ≠ some .main) (e : ε)
    (hfirst : (σ.events e).signaled = false ∨ (σ.events e).waiters = []) :
    ∃ loc', Conserved (eventSet e σ) loc' := by
  obtain ⟨hready, hrun, hmain, hnumber, hdescriptors, hsems, hevents, happended, hdispatched⟩ :=
    eventSet_fields e σ
  have hproxy : loc .main ≠ some (.event e) := by
    intro hm
    have hk := h.proxy _ hm
    cases hk
  refine ⟨_, h.placed.moveAll (p := .event e) (q := .ready) (by simp) fun u k => ?_, fun c => ?_,
    ?_, ?_, fun k hk => ?_, fun hn => ?_, fun hn => ?_, ?_⟩
  · cases k with
    | ready =>
      rcases hfirst with hsig | hw
      · simp [occ, hready, hsig]
      · simp [occ, hready, hw]
    | event e' =>
      by_cases he : e' = e
      · subst he
        simp [occ, hevents]
      · simp [occ, hevents, he]
    | running => simp [occ, hrun]
    | sem => simp [occ, hsems]
  · rw [hdescriptors, ← h.allocated c]
    split <;> simp_all
  · rw [hdescriptors]
    exact h.nodup
  · rw [hnumber, hdescriptors, h.counted]
  · rw [if_neg hproxy] at hk
    exact h.proxy k hk
  · rw [hmain]
    exact h.inside (hrun ▸ hn)
  · exact absurd (hrun ▸ hn) hr
  · rw [happended, hdispatched, hready, h.dispatchOrder, List.append_assoc]

/-- `ut_run` hands the processor to the first ready thread. -/
theorem conserved_utRun {σ σ' : State ι ε} {loc : PUThread → Option (Place ι ε)}
    (h : Conserved σ loc) (hstep : next σ .enterRun = some σ') : ∃ loc', Conserved σ' loc' := by
  obtain ⟨hr, rfl | rfl⟩ := next_enterRun hstep
  · exact ⟨loc, h⟩
  · have hpark : Conserved (parked { σ with
        mainThread := some .main, runningThread := some .main }) loc := by
      refine ⟨fun u k => ?_, h.allocated, h.nodup, h.counted, h.proxy,
        fun hn => absurd rfl hn, fun hn => by simp [parked] at hn, h.dispatchOrder⟩
      rw [← h.placed u k]
      cases k <;> simp [occ, parked, hr]
    exact conserved_switch hpark rfl (schedule_switchedFrom _ _)

/-- `ut_run` leaves no thread running when it returns. -/
theorem conserved_utRunReturn {σ σ' : State ι ε} {loc : PUThread → Option (Place ι ε)}
    (h : Conserved σ loc) (hstep : next σ .leaveRun = some σ') :
    ∃ loc', Conserved σ' loc' := by
  obtain ⟨hr, -, -, rfl⟩ := next_leaveRun hstep
  have hloc : loc .main = some .running := h.placed.pos_iff.mp (by simp [occ, hr])
  refine ⟨_, h.placed.update .main none fun u k => ?_, fun b => ?_, h.nodup, h.counted,
    fun k hk => ?_, fun hn => absurd rfl hn, fun hn => by simp at hn, h.dispatchOrder⟩
  · rw [hloc]
    by_cases hu : u = .main
    · cases k <;> simp [occ, hr, hu]
    · cases k <;> simp [occ, hr, hu, Ne.symm hu]
  · rw [Function.update_of_ne (by simp)]
    exact h.allocated b
  · rw [Function.update_self] at hk
    cases hk

/-- Calls of `event_set` on an event that was never set, or has no wait block left. -/
def FreshSet (σ : State ι ε) : Command ι ε → Prop
  | .call (.eventSet e) => (σ.events e).signaled = false ∨ (σ.events e).waiters = []
  | _ => True

/-- Every step keeps every thread in exactly one place. -/
theorem conserved_next {σ σ' : State ι ε} {c : Command ι ε}
    {loc : PUThread → Option (Place ι ε)} (h : Conserved σ loc) (hset : FreshSet σ c)
    (hstep : next σ c = some σ') : ∃ loc', Conserved σ' loc' := by
  cases c with
  | create b =>
    obtain ⟨hr, hb, rfl⟩ := next_create hstep
    exact conserved_utCreate h hb (by simp [hr])
  | enterRun => exact conserved_utRun h hstep
  | leaveRun => exact conserved_utRunReturn h hstep
  | call c =>
    obtain ⟨b, hr, hmalloc, rfl⟩ := next_call hstep
    have hmain : σ.runningThread ≠ some .main := by simp [hr]
    cases c with
    | utCreate b' => exact conserved_utCreate h (by simpa [mallocOk] using hmalloc) hmain
    | utYield => exact conserved_utYield h hr
    | utExit => exact conserved_utExit h hr
    | semWait s units => exact conserved_semWait h hr s units
    | semPost s units => exact conserved_semPost h hmain s units
    | eventWait e => exact conserved_eventWait h hr e
    | eventSet e => exact conserved_eventSet h hmain e hset

/-- Along every run every thread stays in exactly one place. -/
theorem conserved_reachable {sems : ι → Semaphore} (hempty : ∀ s, (sems s).waiters = [])
    {σ : State ι ε} (h : ((library sems).restrict FreshSet).Reachable σ) : ∃ loc, Conserved σ loc := by
  refine System.Reachable.invariant (I := fun σ => ∃ loc, Conserved σ loc) ?_
    (fun s c t _ hs hstep => ?_) h
  · rintro σ rfl
    refine ⟨fun _ => none, fun u k => ?_, by simp [initial, utInit], by simp [initial, utInit],
      rfl, by simp, by simp [initial, utInit], fun _ => rfl, rfl⟩
    cases k with
    | sem s => simp [occ, initial, utInit, hempty s]
    | running | ready | event => simp [occ, initial, utInit, eventInit]
  · obtain ⟨loc, hloc⟩ := hs
    exact conserved_next hloc hstep.1 hstep.2

/-- The calls of programs that use the scheduler and semaphores only, with
positive counts and without overflow of the counter. -/
def SchedulerCall (σ : State ι ε) : Command ι ε → Prop
  | .call (.semWait _ units) => 0 < units
  | .call (.semPost s units) => 0 < units ∧ (σ.sems s).units + units ≤ intMax
  | .call (.eventWait _) => False
  | .call (.eventSet _) => False
  | _ => True

/-- Such programs leave the events alone. -/
theorem schedulerCall_events {σ σ' : State ι ε} {c : Command ι ε} (hc : SchedulerCall σ c)
    (hstep : next σ c = some σ') : σ'.events = σ.events := by
  cases c with
  | create b =>
    obtain ⟨-, -, rfl⟩ := next_create hstep
    rfl
  | enterRun =>
    obtain ⟨-, rfl | rfl⟩ := next_enterRun hstep
    · rfl
    · simp
  | leaveRun =>
    obtain ⟨-, -, -, rfl⟩ := next_leaveRun hstep
    rfl
  | call c =>
    obtain ⟨b, hr, -, rfl⟩ := next_call hstep
    cases c with
    | utCreate => rfl
    | utYield =>
      rw [perform, utYield_eq hr]
      split <;> simp [insertReady]
    | utExit =>
      obtain ⟨-, -, -, -, -, -, -, hevents, -⟩ := utExit_fields σ hr
      exact hevents
    | semWait =>
      simp only [perform, semWait, hr]
      split <;> simp [utDeactivate, record, setSem]
    | semPost s units => exact (semPost_fields σ s units).2.2.2.2.1
    | eventWait => exact hc.elim
    | eventSet => exact hc.elim

/-- Programs that use the scheduler and semaphores keep every thread in one place. -/
theorem conserved_scheduler {sems : ι → Semaphore} (hempty : ∀ s, (sems s).waiters = [])
    {σ : State ι ε} (h : ((library sems).restrict SchedulerCall).Reachable σ) :
    ∃ loc, Conserved σ loc := by
  refine conserved_reachable hempty (h.mono fun σ c hσ => ?_)
  cases c with
  | call c => cases c <;> trivial
  | create | enterRun | leaveRun => trivial

/-- A step allocates a descriptor for the thread that it creates, frees that of the
thread that it ends, and leaves the others alone. -/
theorem descriptors_step {σ σ' : State ι ε} {c : Command ι ε} {loc : PUThread → Option (Place ι ε)}
    (h : Conserved σ loc) (hstep : next σ c = some σ') (b : ℕ) :
    (createdThreads [⟨σ, c, σ'⟩]).count b + σ.descriptors.count b =
      (exitedThreads [⟨σ, c, σ'⟩]).count b + σ'.descriptors.count b := by
  cases c with
  | create b' =>
    obtain ⟨hr, -, rfl⟩ := next_create hstep
    simp [createdThreads, exitedThreads, hr, utCreate, utActivate, insertReady, List.count_cons]
    omega
  | enterRun =>
    obtain ⟨hr, rfl | rfl⟩ := next_enterRun hstep <;> simp [createdThreads, exitedThreads, hr]
  | leaveRun =>
    obtain ⟨hr, -, -, rfl⟩ := next_leaveRun hstep
    simp [createdThreads, exitedThreads, hr]
  | call c =>
    obtain ⟨r, hr, -, rfl⟩ := next_call hstep
    cases c with
    | utCreate b' =>
      simp [createdThreads, exitedThreads, hr, perform, utCreate, utActivate, insertReady,
        List.count_cons]
      omega
    | utExit =>
      -- The descriptor that is freed was allocated, since its thread was running.
      have hmem : r ∈ σ.descriptors := (h.allocated r).mp (Option.isSome_iff_exists.mpr
        ⟨.running, h.placed.pos_iff.mp (by simp [occ, hr])⟩)
      obtain ⟨-, -, -, -, hdescriptors, -⟩ := utExit_fields σ hr
      have hpos : 0 < σ.descriptors.count r := List.count_pos_iff.mpr hmem
      by_cases hb : r = b
      · subst hb
        simp [createdThreads, exitedThreads, hr, perform, hdescriptors]
        omega
      · simp [createdThreads, exitedThreads, hr, perform, hdescriptors, hb, Ne.symm hb]
    | utYield =>
      rw [perform, utYield_eq hr]
      split <;> simp [createdThreads, exitedThreads, hr, insertReady]
    | semWait s units =>
      simp only [perform, semWait, hr]
      split <;> simp [createdThreads, exitedThreads, hr, utDeactivate, record, setSem]
    | semPost s units =>
      simp [createdThreads, exitedThreads, hr, perform, (semPost_fields σ s units).2.2.1]
    | eventWait e =>
      simp only [perform, eventWait, hr]
      split <;> simp [createdThreads, exitedThreads, hr, utDeactivate, record, setEvent]
    | eventSet e =>
      obtain ⟨-, -, -, -, hdescriptors, -⟩ := eventSet_fields e σ
      simp [createdThreads, exitedThreads, hr, perform, hdescriptors]

/-- After every run the allocated descriptors are those of the threads that the run
created and that have not exited in it. -/
theorem descriptors_run {sems : ι → Semaphore} (hempty : ∀ s, (sems s).waiters = [])
    {trace : List (Transition (State ι ε) (Command ι ε))} {σ : State ι ε}
    (hrun : ((library sems).restrict SchedulerCall).Run (initial sems) trace σ) (b : ℕ) :
    (createdThreads trace).count b = (exitedThreads trace).count b + σ.descriptors.count b := by
  generalize hs : initial sems = σ₀ at hrun
  induction hrun with
  | nil =>
    subst hs
    simp [createdThreads, exitedThreads, initial, utInit]
  | snoc hbefore hstep ih =>
    obtain ⟨loc, hc⟩ := conserved_scheduler hempty (hbefore.reachable (.start hs.symm))
    have hlast := descriptors_step hc hstep.2 b
    simp only [createdThreads, exitedThreads, List.filterMap_append, List.count_append] at hlast ih ⊢
    omega

/-- How often the wait block of a thread is linked in a semaphore's list. -/
def waiting (σ : State ι ε) (s : ι) (t : PUThread) : ℕ :=
  ((σ.sems s).waiters.map SemWaitBlock.thread).count t

/-- A thread runs, or is linked once in the ready queue, or waits once on one
semaphore, and only one of the three. -/
def InOnePlace (σ : State ι ε) (t : PUThread) : Prop :=
  (σ.runningThread = some t ∧ t ∉ σ.readyQueue ∧ ∀ s, waiting σ s t = 0) ∨
  (σ.runningThread ≠ some t ∧ σ.readyQueue.count t = 1 ∧ ∀ s, waiting σ s t = 0) ∨
  (σ.runningThread ≠ some t ∧ t ∉ σ.readyQueue ∧
    ∃ s, waiting σ s t = 1 ∧ ∀ s', s' ≠ s → waiting σ s' t = 0)

/-- The location function, read in terms of the three places. -/
theorem inOnePlace_of_located {σ : State ι ε} {loc : PUThread → Option (Place ι ε)}
    (h : Placed (occ σ) loc) {t : PUThread} (ht : (loc t).isSome)
    (hevents : ∀ e, loc t ≠ some (.event e)) : InOnePlace σ t := by
  obtain ⟨k, hk⟩ := Option.isSome_iff_exists.mp ht
  have hrun : σ.runningThread = some t ↔ loc t = some .running := by
    rw [← h.pos_iff]
    cases hr : σ.runningThread with
    | none => simp [occ, hr]
    | some r => by_cases hrt : r = t <;> simp [occ, hr, hrt]
  have hready : t ∈ σ.readyQueue ↔ loc t = some .ready := by
    rw [← h.pos_iff]
    simp [occ, List.count_pos_iff]
  have hwait : ∀ s, waiting σ s t = if loc t = some (.sem s) then 1 else 0 := fun s => h t (.sem s)
  simp only [InOnePlace, ne_eq, hrun, hready, hwait, hk]
  cases k with
  | running => simp
  | ready =>
    have hone : σ.readyQueue.count t = 1 := (h t .ready).trans (by simp [hk])
    simp [hone]
  | sem s => exact .inr (.inr ⟨by simp, by simp, s, by simp, fun s' hs' => by simp [Ne.symm hs']⟩)
  | event e => exact absurd hk (hevents e)

/-- A linked thread has a place, so it is the proxy or an allocated thread. -/
theorem located_user {σ : State ι ε} {loc : PUThread → Option (Place ι ε)}
    (h : Conserved σ loc) {t : PUThread} {k : Place ι ε} (ht : 0 < occ σ t k)
    (hk : k ≠ .running) : ∃ b ∈ σ.descriptors, t = .user b := by
  have hloc := h.placed.pos_iff.mp ht
  cases t with
  | main => exact absurd (h.proxy k hloc) hk
  | user b => exact ⟨b, (h.allocated b).mp (by simp [hloc]), rfl⟩

/-- A thread that runs, or is nowhere, is not linked in any list. -/
theorem not_linked {σ : State ι ε} {loc : PUThread → Option (Place ι ε)}
    (h : Placed (occ σ) loc) {t : PUThread} (ht : ∀ k, loc t = some k → k = .running) :
    t ∉ σ.readyQueue ∧ (∀ s, ∀ block ∈ (σ.sems s).waiters, block.thread ≠ t) ∧
      ∀ e, (σ.events e).signaled = false → t ∉ (σ.events e).waiters := by
  have hzero : ∀ k, k ≠ .running → occ σ t k = 0 := by
    intro k hk
    rw [h t k, if_neg fun hloc => hk (ht k hloc)]
  refine ⟨?_, fun s block hblock hbt => ?_, fun e he hmem => ?_⟩
  · simpa [occ, List.count_eq_zero] using hzero .ready (by simp)
  · have hcount := hzero (.sem s) (by simp)
    rw [occ, List.count_eq_zero] at hcount
    exact hcount (List.mem_map.mpr ⟨block, hblock, hbt⟩)
  · have hcount := hzero (.event e) (by simp)
    simp only [occ, he, cond_false, List.count_eq_zero] at hcount
    exact hcount hmem

/-- The running thread has the processor as its only place. -/
theorem caller_running {σ : State ι ε} {loc : PUThread → Option (Place ι ε)} {b : ℕ}
    (hc : Conserved σ loc) (hr : σ.runningThread = some (.user b)) :
    ∀ k, loc (.user b) = some k → k = .running := by
  have hloc : loc (.user b) = some .running := hc.placed.pos_iff.mp (by simp [occ, hr])
  exact fun k hk => Option.some.inj (hk.symm.trans hloc)

/-- While the main thread runs, every user thread left waits on a semaphore. -/
theorem main_waiting {σ : State ι ε} {loc : PUThread → Option (Place ι ε)}
    (h : Conserved σ loc) (hevents : ∀ t e, loc t ≠ some (.event e))
    (hmain : σ.runningThread = some .main) {b : ℕ} (hb : b ∈ σ.descriptors) :
    ∃ s, waiting σ s (.user b) = 1 := by
  rcases inOnePlace_of_located h.placed ((h.allocated b).mpr hb) (hevents _) with
    ⟨hr, -⟩ | ⟨-, hq, -⟩ | ⟨-, -, s, hs, -⟩
  · simp [hmain] at hr
  · simp [h.drained hmain] at hq
  · exact ⟨s, hs⟩

/-- Scheduler conservation. In every reachable state of a program that uses the
scheduler and semaphores, every created and not yet exited thread is in exactly
one place and nothing else is linked anywhere; the counter counts these
threads; dispatch follows the order of the appends; and when control is back
in `ut_run`, the ready queue is empty and the threads still counted are
exactly those that wait on a semaphore. The threads meant are those whose
descriptor is allocated: on every run to the state these are the threads that
were created and have not called `ut_exit`. -/
theorem scheduler_conservation {sems : ι → Semaphore} (hsems : SemsReady sems) {σ : State ι ε}
    (h : ((library sems).restrict SchedulerCall).Reachable σ) :
    (∀ b ∈ σ.descriptors, InOnePlace σ (.user b)) ∧
    (∀ t, (∀ b ∈ σ.descriptors, t ≠ .user b) →
      t ∉ σ.readyQueue ∧ (∀ s, waiting σ s t = 0) ∧ (σ.runningThread = some t → t = .main)) ∧
    σ.descriptors.Nodup ∧ σ.numberOfThreads = σ.descriptors.length ∧
    appendedThreads σ = dispatchedThreads σ ++ σ.readyQueue ∧
    (σ.runningThread = some .main →
      σ.readyQueue = [] ∧ (∀ b ∈ σ.descriptors, ∃ s, waiting σ s (.user b) = 1) ∧
      (σ.numberOfThreads = 0 ↔ ∀ s, (σ.sems s).waiters = [])) ∧
    ∀ trace, ((library sems).restrict SchedulerCall).Run (initial sems) trace σ →
      ∀ b, (createdThreads trace).count b =
        (exitedThreads trace).count b + σ.descriptors.count b := by
  obtain ⟨loc, hc⟩ := conserved_scheduler hsems.waiters_eq h
  have hevents : σ.events = fun _ => eventInit := by
    refine System.Reachable.invariant (I := fun σ => σ.events = fun _ => eventInit) ?_ ?_ h
    · rintro σ rfl
      rfl
    · exact fun s c t _ hs hstep => (schedulerCall_events hstep.1 hstep.2).trans hs
  have hnoevent : ∀ t e, loc t ≠ some (.event e) := by
    intro t e ht
    have hpos := hc.placed.pos_iff.mpr ht
    simp [occ, hevents, eventInit] at hpos
  have hwaiter : ∀ s, (σ.sems s).waiters ≠ [] → σ.descriptors ≠ [] := by
    intro s hs hd
    obtain ⟨w, rest, hw⟩ := List.exists_cons_of_ne_nil hs
    obtain ⟨b, hb, -⟩ := located_user hc (t := w.thread) (k := .sem s) (by simp [occ, hw]) (by simp)
    rw [hd] at hb
    cases hb
  refine ⟨fun b hb => ?_, fun t ht => ⟨fun hready => ?_, fun s => ?_, fun hrun => ?_⟩, hc.nodup,
    hc.counted, hc.dispatchOrder, fun hmain => ⟨hc.drained hmain, ?_, ?_⟩,
    fun trace hrun b => descriptors_run hsems.waiters_eq hrun b⟩
  · exact inOnePlace_of_located hc.placed ((hc.allocated b).mpr hb) (hnoevent _)
  · obtain ⟨b, hb, rfl⟩ := located_user hc (k := .ready) (by simpa [occ] using hready) (by simp)
    exact ht b hb rfl
  · by_contra hs
    obtain ⟨b, hb, rfl⟩ := located_user hc (k := .sem s) (Nat.pos_of_ne_zero hs) (by simp)
    exact ht b hb rfl
  · cases t with
    | main => rfl
    | user b =>
      have hloc : loc (.user b) = some .running := hc.placed.pos_iff.mp (by simp [occ, hrun])
      exact absurd rfl (ht b ((hc.allocated b).mp (by simp [hloc])))
  · exact fun b hb => main_waiting hc hnoevent hmain hb
  · rw [hc.counted, List.length_eq_zero_iff]
    constructor
    · intro hd s
      by_contra hs
      exact hwaiter s hs hd
    · intro hs
      by_contra hd
      obtain ⟨b, rest, hb⟩ := List.exists_cons_of_ne_nil hd
      obtain ⟨s, hw⟩ := main_waiting hc hnoevent hmain (b := b) (by simp [hb])
      simp [waiting, hs s] at hw

/-- Three threads are created. The first blocks on a semaphore without units, the
second exits and the third runs. -/
theorem scheduler_conservation_blocked :
    ∃ (trace : List (Transition (State Unit Empty) (Command Unit Empty))) (σ : State Unit Empty),
      ((library fun _ => semInit 0 1).restrict SchedulerCall).Run (initial fun _ => semInit 0 1)
        trace σ ∧ exitedThreads trace = [1] ∧ InOnePlace σ (.user 0) ∧
      waiting σ () (.user 0) = 1 ∧ 1 ∉ σ.descriptors ∧ σ.numberOfThreads = 2 := by
  let sems : Unit → Semaphore := fun _ => semInit 0 1
  have hsems : SemsReady sems := fun _ => ⟨0, 1, rfl, by decide, by decide, by decide⟩
  have hcreated := (((System.Run.nil (S := (library sems).restrict SchedulerCall)
    (initial sems : State Unit Empty)).snoc (a := Command.create 0) ⟨trivial, rfl⟩).snoc
    (a := Command.create 1) ⟨trivial, rfl⟩).snoc (a := Command.create 2) ⟨trivial, rfl⟩
  have hblocked := (hcreated.snoc (a := Command.enterRun) ⟨trivial, rfl⟩).snoc
    (a := Command.call (.semWait () 1)) ⟨show (0 : ℤ) < 1 by decide, rfl⟩
  have hexited := hblocked.snoc (a := Command.call .utExit) ⟨trivial, rfl⟩
  have hall := scheduler_conservation hsems (hexited.reachable (.start rfl))
  refine ⟨_, _, hexited, rfl, hall.1 0 (by decide), by decide, fun hmem => ?_,
    hall.2.2.2.1.trans (by decide)⟩
  have hcount := hall.2.2.2.2.2.2 _ hexited 1
  have hpos := List.count_pos_iff.mpr hmem
  rw [show List.count 1 (createdThreads _) = 1 from rfl] at hcount
  rw [show List.count 1 (exitedThreads _) = 1 from rfl] at hcount
  omega

end SistemasOperativos.UThreadConservation
