import Mathlib.Tactic
import SistemasOperativos.UThreadConservation
import SistemasOperativos.UThreadSemaphore

/-!
# The events of the user-thread library

`event_wait` links a wait block that no function ever unlinks: `event_set`
walks along the list and activates every thread in it. The list therefore
holds every thread that ever blocked on the event, and a second `event_set`
activates all of them again. Delivery is correct in exactly the runs in which
no event is set again while it has wait blocks.
-/

namespace SistemasOperativos.UThreadEvent

open TransitionRuns TokenPlaces UThread UThreadConservation UThreadSemaphore

variable {ι ε : Type} [DecidableEq ι] [DecidableEq ε]

/-- An entry about a thread that blocks on the event. -/
def waitMark (e : ε) : Entry ι ε → Option PUThread
  | .waited e' t => if e' = e then some t else none
  | _ => none

/-- An entry about a thread that is put in the ready queue for the event. -/
def wakeMark (e : ε) : Entry ι ε → Option PUThread
  | .appended t (.signaled e') _ => if e' = e then some t else none
  | _ => none

/-- An event with the part of the log that is about it. -/
structure EventView where
  /-- The flag of the event. -/
  signaled : Bool
  /-- Threads of the linked wait blocks. -/
  waiters : List PUThread
  /-- Threads that blocked on the event, in order. -/
  waits : List PUThread
  /-- Threads put in the ready queue on behalf of the event, in order. -/
  wakes : List PUThread

/-- One event, seen alone. -/
def eventView (e : ε) (σ : State ι ε) : EventView :=
  ⟨(σ.events e).signaled, (σ.events e).waiters, σ.log.filterMap (waitMark e),
    σ.log.filterMap (wakeMark e)⟩

section Views

omit [DecidableEq ι]

/-- Entries that are not about an event leave its view alone. -/
theorem eventView_congr {e : ε} {σ σ' : State ι ε} (entries : List (Entry ι ε))
    (hevents : σ'.events e = σ.events e) (hlog : σ'.log = σ.log ++ entries)
    (hwait : entries.filterMap (waitMark e) = []) (hwake : entries.filterMap (wakeMark e) = []) :
    eventView e σ' = eventView e σ := by
  simp [eventView, hevents, hlog, hwait, hwake]

/-- The dispatch of the next thread is no business of an event. -/
theorem eventView_dispatch {e : ε} {σ σ' : State ι ε} (hevents : σ'.events = σ.events)
    (hlog : σ'.log = (extractNextThread σ).2.log) : eventView e σ' = eventView e σ := by
  refine eventView_congr _ (congrFun hevents e) (hlog.trans (extractNextThread_log σ)) ?_ ?_ <;>
    cases σ.readyQueue.head? <;> rfl

/-- A switch to another thread is no business of an event. -/
@[simp] theorem eventView_schedule (e : ε) (frame : Frame ι ε) (σ : State ι ε) :
    eventView e (schedule frame σ) = eventView e σ :=
  eventView_dispatch (by simp) (by simp)

/-- Appends on behalf of something else are no business of an event. -/
theorem eventView_insertReady {e : ε} {cause : Cause ι ε} (hc : cause ≠ .signaled e)
    (t : PUThread) (σ : State ι ε) : eventView e (insertReady cause t σ) = eventView e σ := by
  refine eventView_congr [.appended t cause (appendable σ t)] rfl rfl rfl ?_
  cases cause with
  | signaled e' =>
    have he : e' ≠ e := fun h => hc (by rw [h])
    simp [wakeMark, he]
  | created | yielded | posted => rfl

/-- Semaphores are no business of an event. -/
theorem eventView_semWait [DecidableEq ι] (e : ε) (s : ι) (units : ℤ) (σ : State ι ε) :
    eventView e (semWait s units σ) = eventView e σ := by
  cases hr : σ.runningThread with
  | none => simp only [semWait, hr]
  | some t =>
    simp only [semWait, hr]
    split
    · exact eventView_congr [.called s t units, .taken s t units] rfl
        (by simp [record, setSem]) rfl rfl
    · rw [utDeactivate, eventView_schedule]
      exact eventView_congr [.called s t units, .blocked s t units] rfl
        (by simp [record, setSem]) rfl rfl

/-- Posting on a semaphore is no business of an event. -/
theorem eventView_semPost [DecidableEq ι] (e : ε) (s : ι) (units : ℤ) (σ : State ι ε) :
    eventView e (semPost s units σ) = eventView e σ := by
  have hloop : ∀ (blocks : List SemWaitBlock) (σ : State ι ε),
      eventView e (semPostLoop s blocks σ) = eventView e σ := by
    intro blocks
    induction blocks with
    | nil => exact fun _ => rfl
    | cons block rest ih =>
      intro σ
      rw [semPostLoop]
      split
      · split
        · rfl
        · rw [ih, utActivate, eventView_insertReady (by simp)]
          exact eventView_congr [.released s block.thread block.units] rfl rfl rfl rfl
      · rfl
  rw [semPost, hloop]
  exact eventView_congr [.posted s σ.runningThread units _] rfl rfl rfl rfl

/-- A call of `event_wait` on an event that is not set links a wait block. -/
theorem eventView_eventWait {e : ε} {t : PUThread} {σ : State ι ε}
    (hr : σ.runningThread = some t) (hsig : (σ.events e).signaled = false) :
    eventView e (eventWait e σ) = { eventView e σ with
      waiters := (eventView e σ).waiters ++ [t]
      waits := (eventView e σ).waits ++ [t] } := by
  simp only [eventWait, hr, hsig, ↓reduceIte, utDeactivate, eventView_schedule]
  simp [eventView, record, setEvent, hsig, waitMark, wakeMark]

/-- A call of `event_wait` on another event, or on a set one, links nothing. -/
theorem eventView_eventWait_other {e e' : ε} {σ : State ι ε}
    (h : e' ≠ e ∨ (σ.events e').signaled = true) :
    eventView e (eventWait e' σ) = eventView e σ := by
  cases hr : σ.runningThread with
  | none => simp only [eventWait, hr]
  | some t =>
    simp only [eventWait, hr]
    split
    next hsig =>
      have he : e' ≠ e := h.resolve_right (by simp [hsig])
      rw [utDeactivate, eventView_schedule]
      exact eventView_congr [.waited e' t]
        (by simp [record, setEvent, Ne.symm he]) rfl (by simp [waitMark, he]) rfl
    next => rfl

/-- A call of `event_set` activates every linked thread and unlinks none. -/
theorem eventView_eventSet (e : ε) (σ : State ι ε) :
    eventView e (eventSet e σ) = { eventView e σ with
      signaled := true
      wakes := (eventView e σ).wakes ++ (eventView e σ).waiters } := by
  have hall : ∀ (ts : List PUThread) (σ : State ι ε),
      eventView e (ts.foldl (fun σ t => utActivate (.signaled e) t σ) σ) =
        { eventView e σ with wakes := (eventView e σ).wakes ++ ts } := by
    intro ts
    induction ts with
    | nil => simp
    | cons t rest ih =>
      intro σ
      rw [List.foldl_cons, ih]
      simp [utActivate, insertReady, eventView, waitMark, wakeMark]
  rw [eventSet, hall]
  simp [eventView, setEvent]

/-- A call of `event_set` on another event leaves the view alone. -/
theorem eventView_eventSet_ne {e e' : ε} (he : e' ≠ e) (σ : State ι ε) :
    eventView e (eventSet e' σ) = eventView e σ := by
  have hall : ∀ (ts : List PUThread) (σ : State ι ε),
      eventView e (ts.foldl (fun σ t => utActivate (.signaled e') t σ) σ) = eventView e σ := by
    intro ts
    induction ts with
    | nil => exact fun _ => rfl
    | cons t rest ih =>
      intro σ
      rw [List.foldl_cons, ih, utActivate, eventView_insertReady (by simp [he])]
  rw [eventSet, hall]
  exact eventView_congr [] (by simp [setEvent, Ne.symm he]) (by simp [setEvent]) rfl rfl

end Views

/-- What a step can do to an event: a thread blocks on it, it is set, or it is
left alone. -/
theorem event_next {e : ε} {σ σ' : State ι ε} {c : Command ι ε} (hstep : next σ c = some σ') :
    (∃ b, c = .call (.eventWait e) ∧ σ.runningThread = some (.user b) ∧
      (σ.events e).signaled = false ∧
      eventView e σ' = { eventView e σ with
        waiters := (eventView e σ).waiters ++ [.user b]
        waits := (eventView e σ).waits ++ [.user b] }) ∨
    (c = .call (.eventSet e) ∧
      eventView e σ' = { eventView e σ with
        signaled := true
        wakes := (eventView e σ).wakes ++ (eventView e σ).waiters }) ∨
    (c ≠ .call (.eventSet e) ∧ eventView e σ' = eventView e σ) := by
  cases c with
  | create b =>
    obtain ⟨-, -, rfl⟩ := next_create hstep
    exact .inr (.inr ⟨by simp, eventView_insertReady (by simp) _ _⟩)
  | enterRun =>
    obtain ⟨-, rfl | rfl⟩ := next_enterRun hstep
    · exact .inr (.inr ⟨by simp, rfl⟩)
    · exact .inr (.inr ⟨by simp, eventView_schedule _ _ _⟩)
  | leaveRun =>
    obtain ⟨-, -, -, rfl⟩ := next_leaveRun hstep
    exact .inr (.inr ⟨by simp, rfl⟩)
  | call c =>
    obtain ⟨b, hr, -, rfl⟩ := next_call hstep
    cases c with
    | utCreate b' => exact .inr (.inr ⟨by simp, eventView_insertReady (by simp) _ _⟩)
    | utYield =>
      refine .inr (.inr ⟨by simp, ?_⟩)
      rw [perform, utYield_eq hr]
      split
      · rfl
      · rw [eventView_schedule, eventView_insertReady (by simp)]
    | utExit =>
      obtain ⟨-, -, -, -, -, -, -, hevents, hlog⟩ := utExit_fields σ hr
      exact .inr (.inr ⟨by simp, eventView_dispatch hevents hlog⟩)
    | semWait s n => exact .inr (.inr ⟨by simp, eventView_semWait e s n σ⟩)
    | semPost s n => exact .inr (.inr ⟨by simp, eventView_semPost e s n σ⟩)
    | eventWait e' =>
      by_cases he : e' = e ∧ (σ.events e').signaled = false
      · obtain ⟨rfl, hsig⟩ := he
        exact .inl ⟨b, rfl, hr, hsig, eventView_eventWait hr hsig⟩
      · have hother : e' ≠ e ∨ (σ.events e').signaled = true := by
          cases hsig : (σ.events e').signaled <;> simp_all
        exact .inr (.inr ⟨by simp, eventView_eventWait_other hother⟩)
    | eventSet e' =>
      by_cases he : e' = e
      · subst he
        exact .inr (.inl ⟨rfl, eventView_eventSet e' σ⟩)
      · exact .inr (.inr ⟨by simp [he], eventView_eventSet_ne he σ⟩)

/-- The list of an event holds every thread that ever blocked on it. -/
theorem linked_reachable {sems : ι → Semaphore} {σ : State ι ε} (h : (library sems).Reachable σ)
    (e : ε) : (eventView e σ).waiters = (eventView e σ).waits := by
  refine System.Reachable.invariant
    (I := fun σ => (eventView e σ).waiters = (eventView e σ).waits) ?_ ?_ h
  · rintro σ rfl
    rfl
  · rintro σ c σ' - hI hstep
    rcases event_next (e := e) hstep with ⟨b, -, -, -, hview⟩ | ⟨-, hview⟩ | ⟨-, hview⟩
    · rw [hview, hI]
    · rw [hview]
      exact hI
    · rw [hview]
      exact hI

/-- Every thread that blocked on the event was made ready for it once, in
order, and not before the event was set. -/
def WokenOnce (e : ε) (σ : State ι ε) : Prop :=
  (eventView e σ).wakes = if (σ.events e).signaled then (eventView e σ).waits else []

/-- Waiters are woken once, as long as no event is set again while it has blocks. -/
theorem wokenOnce_reachable {sems : ι → Semaphore} {σ : State ι ε}
    (h : ((library sems).restrict FreshSet).Reachable σ) (e : ε) : WokenOnce e σ := by
  refine System.Reachable.invariant (I := WokenOnce e) ?_ ?_ h
  · rintro σ rfl
    rfl
  · rintro σ c σ' hσ hI ⟨hset, hstep⟩
    have hlinked : (σ.events e).waiters = (eventView e σ).waits :=
      linked_reachable hσ.of_restrict e
    have hflag : ∀ σ : State ι ε, (eventView e σ).signaled = (σ.events e).signaled := fun _ => rfl
    unfold WokenOnce at hI ⊢
    rw [← hflag] at hI ⊢
    rcases event_next (e := e) hstep with ⟨b, -, -, hsig, hview⟩ | ⟨rfl, hview⟩ | ⟨-, hview⟩
    · rw [hflag, hsig] at hI
      rw [hview]
      simpa [hflag, hsig] using hI
    · rw [hview]
      have hwaiters : (eventView e σ).waiters = (σ.events e).waiters := rfl
      rcases hset with hsig | hempty
      · rw [hflag, hsig] at hI
        simpa [hI, hwaiters] using hlinked
      · rw [hempty] at hlinked
        simpa [hwaiters, hempty, ← hlinked] using hI
    · rw [hview]
      exact hI

/-- Every thread that is activated is at that moment allocated, not running and
not in the ready queue. `ut_yield` appends its caller just before it switches
away, and is no activation. -/
def CleanAppends (σ : State ι ε) : Prop :=
  ∀ t cause clean, Entry.appended t cause clean ∈ σ.log → cause ≠ .yielded → clean = true

section Clean

omit [DecidableEq ι] [DecidableEq ε]

/-- Entries that record no activation keep the appends clean. -/
theorem clean_congr {σ σ' : State ι ε} (entries : List (Entry ι ε)) (h : CleanAppends σ)
    (hlog : σ'.log = σ.log ++ entries)
    (hentries : ∀ t cause clean, Entry.appended t cause clean ∈ entries → cause ≠ .yielded →
      clean = true) : CleanAppends σ' := by
  intro t cause clean hmem hcause
  rw [hlog, List.mem_append] at hmem
  rcases hmem with hmem | hmem
  · exact h t cause clean hmem hcause
  · exact hentries t cause clean hmem hcause

/-- A dispatch activates nobody. -/
theorem clean_dispatch {σ σ' : State ι ε} (h : CleanAppends σ)
    (hlog : σ'.log = (extractNextThread σ).2.log) : CleanAppends σ' :=
  clean_congr _ h (hlog.trans (extractNextThread_log σ)) (by simp)

/-- A switch activates nobody. -/
theorem clean_schedule {σ : State ι ε} (h : CleanAppends σ) (frame : Frame ι ε) :
    CleanAppends (schedule frame σ) :=
  clean_dispatch h (by simp)

/-- An activation is clean when its thread may be linked in the ready queue. -/
theorem clean_insertReady {σ : State ι ε} (h : CleanAppends σ) {cause : Cause ι ε}
    {t : PUThread} (ht : appendable σ t = true ∨ cause = .yielded) :
    CleanAppends (insertReady cause t σ) := by
  refine clean_congr [.appended t cause (appendable σ t)] h rfl ?_
  intro u cause' clean hmem hcause
  rw [List.mem_singleton] at hmem
  cases hmem
  exact ht.resolve_right hcause

/-- Linking one thread leaves the others as linkable as they were. -/
theorem appendable_insertReady {σ : State ι ε} {cause : Cause ι ε} {t u : PUThread}
    (hu : appendable σ u = true) (htu : u ≠ t) : appendable (insertReady cause t σ) u = true := by
  cases u with
  | main => exact hu
  | user b => simpa [appendable, insertReady, htu] using hu

/-- Activating distinct linkable threads one after the other is clean. -/
theorem clean_activateAll (cause : Cause ι ε) (ts : List PUThread) :
    ∀ {σ : State ι ε}, CleanAppends σ → ts.Nodup → (∀ t ∈ ts, appendable σ t = true) →
      CleanAppends (ts.foldl (fun σ t => utActivate cause t σ) σ) := by
  induction ts with
  | nil => exact fun h _ _ => h
  | cons t rest ih =>
    intro σ h hnodup hall
    obtain ⟨htr, hrest⟩ := List.nodup_cons.mp hnodup
    have hfirst : CleanAppends (insertReady cause t σ) :=
      clean_insertReady h (.inl (hall t List.mem_cons_self))
    refine ih hfirst hrest fun u hu => ?_
    have hut : u ≠ t := fun hut => htr (hut ▸ hu)
    exact appendable_insertReady (hall u (List.mem_cons_of_mem t hu)) hut

end Clean

/-- A thread that waits somewhere may be linked in the ready queue. -/
theorem appendable_of_waiting {σ : State ι ε} {loc : PUThread → Option (Place ι ε)}
    (h : Conserved σ loc) {t : PUThread} {k : Place ι ε} (ht : loc t = some k)
    (hrunning : k ≠ .running) (hready : k ≠ .ready) : appendable σ t = true := by
  cases t with
  | main => exact absurd (h.proxy k ht) hrunning
  | user b =>
    have hb : b ∈ σ.descriptors := (h.allocated b).mp (by simp [ht])
    have hnotReady : PUThread.user b ∉ σ.readyQueue := by
      have hzero := h.placed (.user b) .ready
      simpa [occ, ht, hready, List.count_eq_zero] using hzero
    have hnotRunning : σ.runningThread ≠ some (.user b) := by
      intro hr
      have hloc : loc (.user b) = some .running := h.placed.pos_iff.mp (by simp [occ, hr])
      exact hrunning (Option.some.inj (ht.symm.trans hloc))
    simp [appendable, hb, hnotReady, hnotRunning]

/-- The loop of `sem_post` activates threads that wait on the semaphore. -/
theorem clean_semPostLoop {s : ι} (blocks : List SemWaitBlock) :
    ∀ {σ : State ι ε} {loc : PUThread → Option (Place ι ε)}, Conserved σ loc →
      CleanAppends σ → σ.runningThread ≠ some .main → (σ.sems s).waiters = blocks →
      CleanAppends (semPostLoop s blocks σ) := by
  induction blocks with
  | nil => exact fun _ h _ _ => h
  | cons block rest ih =>
    intro σ loc hc h hr hw
    rw [semPostLoop]
    split
    · split
      · exact h
      · have hloc : loc block.thread = some (.sem s) := hc.placed.pos_iff.mp (by simp [occ, hw])
        have happendable := appendable_of_waiting hc hloc (by simp) (by simp)
        have hreleased : CleanAppends (record (.released s block.thread block.units)
            (setSem s ⟨rest, wrapInt ((σ.sems s).units - block.units), (σ.sems s).limit⟩ σ)) :=
          clean_congr [.released s block.thread block.units] h rfl (by simp)
        have hactivated : CleanAppends (utActivate (.posted s) block.thread _) :=
          clean_insertReady hreleased (.inl happendable)
        obtain ⟨loc', hc'⟩ := conserved_release hc hr hw
          (wrapInt ((σ.sems s).units - block.units)) (σ.sems s).limit
        exact ih hc' hactivated hr (by simp [utActivate, insertReady, record, setSem])
    · exact h

/-- `sem_post` activates threads that wait on the semaphore. -/
theorem clean_semPost {σ : State ι ε} {loc : PUThread → Option (Place ι ε)}
    (hc : Conserved σ loc) (h : CleanAppends σ) (hr : σ.runningThread ≠ some .main) (s : ι)
    (units : ℤ) : CleanAppends (semPost s units σ) := by
  have hdeposit := conserved_deposit hc s units
    (clampedUnits (σ.sems s) units - (σ.sems s).units) (clampedUnits (σ.sems s) units)
  have hrecorded : CleanAppends (record (.posted s σ.runningThread units
      (clampedUnits (σ.sems s) units - (σ.sems s).units))
      (setSem s { σ.sems s with units := clampedUnits (σ.sems s) units } σ)) :=
    clean_congr [_] h rfl (by simp)
  exact clean_semPostLoop _ hdeposit hrecorded hr (by simp [record, setSem])

/-- `event_set` activates threads that wait on the event, unless it was set before. -/
theorem clean_eventSet {σ : State ι ε} {loc : PUThread → Option (Place ι ε)}
    (hc : Conserved σ loc) (h : CleanAppends σ) {e : ε}
    (hset : (σ.events e).signaled = false ∨ (σ.events e).waiters = []) :
    CleanAppends (eventSet e σ) := by
  have hstart : CleanAppends (setEvent e { σ.events e with signaled := true } σ) := h
  have hwaiting : ∀ t ∈ (σ.events e).waiters, loc t = some (.event e) := by
    intro t ht
    rcases hset with hsig | hempty
    · exact hc.placed.pos_iff.mp (by simpa [occ, hsig, List.count_pos_iff] using ht)
    · simp [hempty] at ht
  refine clean_activateAll _ _ hstart ?_ fun t ht =>
    appendable_of_waiting hc (hwaiting t ht) (by simp) (by simp)
  rcases hset with hsig | hempty
  · rw [List.nodup_iff_count_le_one]
    intro t
    simpa [occ, hsig] using hc.placed.le_one (t := t) (k := .event e)
  · simp [hempty]

/-- Every step keeps the activations clean. -/
theorem clean_next {σ σ' : State ι ε} {loc : PUThread → Option (Place ι ε)} {c : Command ι ε}
    (hc : Conserved σ loc) (h : CleanAppends σ) (hset : FreshSet σ c)
    (hstep : next σ c = some σ') : CleanAppends σ' := by
  have hcreate : ∀ b, b ∉ σ.descriptors → σ.runningThread ≠ some .main →
      CleanAppends (utCreate b σ) := by
    intro b hb hr
    have hloc : loc (.user b) = none := by simpa using mt (hc.allocated b).mp hb
    have hnotReady := (not_linked hc.placed (t := .user b) (by simp [hloc])).1
    have hnotRunning : σ.runningThread ≠ some (.user b) := by
      intro hr
      have hrunning : loc (.user b) = some .running := hc.placed.pos_iff.mp (by simp [occ, hr])
      simp [hloc] at hrunning
    have hstart : CleanAppends { σ with
        descriptors := b :: σ.descriptors
        context := Function.update σ.context (.user b) .internalStart
        numberOfThreads := σ.numberOfThreads + 1 } := h
    exact clean_insertReady hstart (.inl (by simp [appendable, hnotReady, hnotRunning]))
  cases c with
  | create b =>
    obtain ⟨hr, hb, rfl⟩ := next_create hstep
    exact hcreate b hb (by simp [hr])
  | enterRun =>
    obtain ⟨-, rfl | rfl⟩ := next_enterRun hstep
    · exact h
    · exact clean_schedule (by exact h) _
  | leaveRun =>
    obtain ⟨-, -, -, rfl⟩ := next_leaveRun hstep
    exact h
  | call c =>
    obtain ⟨b, hr, hmalloc, rfl⟩ := next_call hstep
    have hmain : σ.runningThread ≠ some .main := by simp [hr]
    cases c with
    | utCreate b' => exact hcreate b' (by simpa [mallocOk] using hmalloc) hmain
    | utYield =>
      rw [perform, utYield_eq hr]
      split
      · exact h
      · exact clean_schedule (clean_insertReady h (.inr rfl)) _
    | utExit =>
      obtain ⟨-, -, -, -, -, -, -, -, hlog⟩ := utExit_fields σ hr
      exact clean_dispatch h hlog
    | semWait s n =>
      simp only [perform, semWait, hr]
      split
      · exact clean_congr [.called s (.user b) n, .taken s (.user b) n] h
          (by simp [record, setSem]) (by simp)
      · refine clean_schedule (clean_congr [.called s (.user b) n,
          .blocked s (.user b) n] h (by simp [record, setSem]) (by simp)) _
    | semPost s n => exact clean_semPost hc h hmain s n
    | eventWait e =>
      simp only [perform, eventWait, hr]
      split
      · exact clean_schedule (clean_congr [.waited e (.user b)] h rfl (by simp)) _
      · exact h
    | eventSet e => exact clean_eventSet hc h hset

/-- What the claims of delivery come to in one state. -/
def Delivered (σ : State ι ε) : Prop := (∀ e, WokenOnce e σ) ∧ CleanAppends σ

/-- Delivery is correct as long as no event is set again while it has blocks. -/
theorem delivered_reachable {sems : ι → Semaphore} (hsems : SemsReady sems) {σ : State ι ε}
    (h : ((library sems).restrict FreshSet).Reachable σ) : Delivered σ := by
  refine ⟨wokenOnce_reachable h, ?_⟩
  refine System.Reachable.invariant (I := CleanAppends) ?_ ?_ h
  · rintro σ rfl
    simp [CleanAppends, initial, utInit]
  · rintro σ c σ' hσ hI ⟨hset, hstep⟩
    obtain ⟨loc, hc⟩ := conserved_reachable hsems.waiters_eq hσ
    exact clean_next hc hI hset hstep

/-- The events work in a run: delivery is correct in every state of it, and no
wait block is left in an event after `event_set`. -/
def EventsCorrect (trace : List (Transition (State ι ε) (Command ι ε))) : Prop :=
  ∀ x ∈ trace, (Delivered x.source ∧ Delivered x.target) ∧
    ∀ e, x.label = .call (.eventSet e) → (x.target.events e).waiters = []

/-- A call of `event_set` on an event in which no wait block is linked. -/
def UnlinkedSet (σ : State ι ε) (c : Command ι ε) : Prop :=
  ∀ e, c = .call (.eventSet e) → (σ.events e).waiters = []

/-- A second `event_set` wakes the waiters of the first one again. -/
theorem not_wokenOnce_eventSet {sems : ι → Semaphore} {σ σ' : State ι ε} {e : ε}
    (h : (library sems).Reachable σ) (hwoken : WokenOnce e σ)
    (hstep : next σ (.call (.eventSet e)) = some σ') (hwoken' : WokenOnce e σ')
    (hsig : (σ.events e).signaled = true) : (σ.events e).waiters = [] := by
  have hlinked : (σ.events e).waiters = (eventView e σ).waits := linked_reachable h e
  obtain ⟨b, hr, -, rfl⟩ := next_call hstep
  have hview := eventView_eventSet e σ
  have hwakes : (eventView e (eventSet e σ)).wakes =
      (eventView e σ).wakes ++ (σ.events e).waiters := by rw [hview]; rfl
  have hwaits : (eventView e (eventSet e σ)).waits = (eventView e σ).waits := by rw [hview]
  have hset : ((eventSet e σ).events e).signaled = true := congrArg EventView.signaled hview
  unfold WokenOnce at hwoken hwoken'
  rw [perform, hset, if_pos rfl, hwaits, hwakes] at hwoken'
  rw [hsig, if_pos rfl] at hwoken
  rw [hwoken] at hwoken'
  simpa using hwoken'

/-- When the events work. A run of the library has correct delivery in every
state and leaves no wait block in an event after `event_set` exactly when
every call of `event_set` in it finds no wait block linked. Delivery alone is
correct exactly when no call of `event_set` is made on an event that was set
before and still has its wait blocks. -/
theorem events_correct_iff {sems : ι → Semaphore} (hsems : SemsReady sems)
    {trace : List (Transition (State ι ε) (Command ι ε))} {σ : State ι ε}
    (hrun : (library sems).Run (initial sems) trace σ) :
    (EventsCorrect trace ↔ ∀ x ∈ trace, UnlinkedSet x.source x.label) ∧
    ((∀ x ∈ trace, Delivered x.source ∧ Delivered x.target) ↔
      ∀ x ∈ trace, FreshSet x.source x.label) := by
  have hinit : (library sems).Reachable (initial sems : State ι ε) := .start rfl
  have hkeeps : ∀ x ∈ trace, ∀ e, x.label = .call (.eventSet e) →
      (x.target.events e).waiters = (x.source.events e).waiters := by
    intro x hx e hlabel
    have hstep := (hrun.transition hinit hx).2
    rw [hlabel] at hstep
    obtain ⟨b, hr, -, htarget⟩ := next_call hstep
    rw [htarget]
    exact congrArg EventView.waiters (eventView_eventSet e x.source)
  have hdelivered : (∀ x ∈ trace, FreshSet x.source x.label) →
      ∀ x ∈ trace, Delivered x.source ∧ Delivered x.target := by
    intro hfresh x hx
    have hinit' : ((library sems).restrict FreshSet).Reachable (initial sems : State ι ε) :=
      .start rfl
    obtain ⟨hsource, hstep⟩ := (hrun.restrict hfresh).transition hinit' hx
    exact ⟨delivered_reachable hsems hsource, delivered_reachable hsems (hsource.next hstep)⟩
  refine ⟨⟨fun hcorrect x hx e hlabel => ?_, fun hunlinked x hx => ⟨?_, fun e hlabel => ?_⟩⟩,
    fun hall x hx => ?_, hdelivered⟩
  · rw [← hkeeps x hx e hlabel]
    exact (hcorrect x hx).2 e hlabel
  · refine hdelivered (fun y hy => ?_) x hx
    have hy' := hunlinked y hy
    unfold FreshSet
    split
    next e hlabel => exact .inr (hy' e hlabel)
    next => trivial
  · rw [hkeeps x hx e hlabel]
    exact hunlinked x hx e hlabel
  · obtain ⟨hsource, hstep⟩ := hrun.transition hinit hx
    obtain ⟨hbefore, hafter⟩ := hall x hx
    unfold FreshSet
    split
    next e hlabel =>
      cases hsig : (x.source.events e).signaled with
      | false => exact .inl rfl
      | true =>
        rw [hlabel] at hstep
        exact .inr (not_wokenOnce_eventSet hsource (hbefore.1 e) hstep (hafter.1 e) hsig)
    next => trivial

/-- One thread waits and another sets the event: the waiter is woken once,
although its wait block stays linked. -/
theorem events_correct_iff_woken :
    ∃ σ : State Empty Unit, (eventView () σ).wakes = [.user 0] ∧ CleanAppends σ ∧
      (σ.events ()).waiters = [.user 0] := by
  let sems : Empty → Semaphore := Empty.elim
  have hsems : SemsReady sems := fun s => s.elim
  have hcreated := (((System.Run.nil (S := library sems) (initial sems : State Empty Unit)).snoc
    (a := Command.create 0) rfl).snoc (a := Command.create 1) rfl).snoc (a := Command.enterRun) rfl
  have hset := (hcreated.snoc (a := Command.call (.eventWait ())) rfl).snoc
    (a := Command.call (.eventSet ())) rfl
  have hdelivered := (events_correct_iff hsems hset).2.mpr (by
    intro x hx
    simp only [List.nil_append, List.cons_append, List.mem_cons, List.not_mem_nil, or_false] at hx
    rcases hx with rfl | rfl | rfl | rfl | rfl
    · trivial
    · trivial
    · trivial
    · trivial
    · exact .inl rfl)
  have hlast := (hdelivered _ (List.mem_append_right _ (List.mem_singleton.mpr rfl))).2
  exact ⟨_, hlast.1 (), hlast.2, rfl⟩

/-- A waiter that is made ready twice: its wait block is still linked after the
first `event_set`, and the second one appends it again while it is in the
ready queue. -/
theorem event_set_twice :
    ∃ (trace : List (Transition (State Empty Unit) (Command Empty Unit)))
      (σ : State Empty Unit), (library Empty.elim).Run (initial Empty.elim) trace σ ∧
      σ.readyQueue = [.user 0, .user 0] ∧ (σ.events ()).waiters = [.user 0] ∧
      ¬ EventsCorrect trace := by
  have hcreated := (((System.Run.nil (S := library Empty.elim)
    (initial Empty.elim : State Empty Unit)).snoc
    (a := Command.create 0) rfl).snoc (a := Command.create 1) rfl).snoc (a := Command.enterRun) rfl
  have hset := ((hcreated.snoc (a := Command.call (.eventWait ())) rfl).snoc
    (a := Command.call (.eventSet ())) rfl).snoc (a := Command.call (.eventSet ())) rfl
  refine ⟨_, _, hset, rfl, rfl, fun hcorrect => ?_⟩
  have hlast := hcorrect _ (List.mem_append_right _ (List.mem_singleton.mpr rfl))
  have hempty := hlast.2 () rfl
  exact absurd hempty (by decide)

end SistemasOperativos.UThreadEvent
