import SistemasOperativos.LinkedUThread
import SistemasOperativos.UThreadConservation

/-!
# The linked user-thread library and the sequences it stands for

The wait lists and the ready queue of the linked library are rings, and the
library takes the same steps as the one on sequences. The ledger of threads
says that an entry is in no list when it is inserted. An upper bound of the
fuel of each pointer walk is one more than the number of entries.
-/

namespace SistemasOperativos.LinkedUThreadRefinement

open CircularChain IntrusiveList LinkedUThread TransitionRuns UThreadConservation
open UThread (PUThread Frame Call Command wrapInt)

variable {ι ε : Type}

/-- The entries linked under each head, in order. -/
def entries (ρ : UThread.State ι ε) : Node ι ε → List (Node ι ε)
  | .readyQueue => ρ.readyQueue.map .link
  | .semWaiters s => (ρ.sems s).waiters.map fun w => .block w.thread
  | .eventWaiters e => (ρ.events e).waiters.map .block
  | .link _ | .block _ => []

/-- The heads whose lists are in use. `event_set` leaves the list of its event behind. -/
def inUse (ρ : UThread.State ι ε) : Set (Node ι ε)
  | .readyQueue | .semWaiters _ => True
  | .eventWaiters e => (ρ.events e).signaled = false
  | .link _ | .block _ => False

/-- The link fields stand for the sequences of the other model, and all other
variables agree. -/
structure Refines (σ : State ι ε) (ρ : UThread.State ι ε) : Prop where
  /-- The lists in use are rings of their entries, and no entry is in two of them. -/
  lists : Represents σ.memory (inUse ρ) (entries ρ)
  runningThread : σ.runningThread = ρ.runningThread
  mainThread : σ.mainThread = ρ.mainThread
  numberOfThreads : σ.numberOfThreads = ρ.numberOfThreads
  descriptors : σ.descriptors = ρ.descriptors
  context : σ.context = ρ.context
  units : ∀ s, σ.units s = (ρ.sems s).units
  limit : ∀ s, σ.limit s = (ρ.sems s).limit
  signaled : ∀ e, σ.signaled e = (ρ.events e).signaled
  /-- A linked wait block of a semaphore names its thread and its request. -/
  semBlocks : ∀ s, ∀ w ∈ (ρ.sems s).waiters,
    σ.blockThread w.thread = some w.thread ∧ σ.blockUnits w.thread = w.units
  /-- A linked wait block of an event names its thread. -/
  eventBlocks : ∀ e, (ρ.events e).signaled = false →
    ∀ t ∈ (ρ.events e).waiters, σ.blockThread t = some t

section Lists

variable {σ : State ι ε} {ρ : UThread.State ι ε}

@[simp] theorem readyQueue_inUse (ρ : UThread.State ι ε) : Node.readyQueue ∈ inUse ρ := trivial

@[simp] theorem semWaiters_inUse (ρ : UThread.State ι ε) (s : ι) :
    Node.semWaiters s ∈ inUse ρ := trivial

theorem eventWaiters_inUse {e : ε} :
    Node.eventWaiters e ∈ inUse ρ ↔ (ρ.events e).signaled = false := Iff.rfl

/-- A descriptor that is not in the ready queue is linked nowhere. -/
theorem link_unlinked {t : PUThread} (ht : t ∉ ρ.readyQueue) :
    ∀ k ∈ inUse ρ, Node.link t ∉ k :: entries ρ k := by
  intro k hk
  cases k with
  | readyQueue => simpa [entries] using ht
  | semWaiters | eventWaiters => simp [entries]
  | link | block => exact hk.elim

/-- The wait block of a thread that waits nowhere is linked nowhere. -/
theorem block_unlinked {t : PUThread} (hsems : ∀ s, ∀ w ∈ (ρ.sems s).waiters, w.thread ≠ t)
    (hevents : ∀ e, (ρ.events e).signaled = false → t ∉ (ρ.events e).waiters) :
    ∀ k ∈ inUse ρ, Node.block t ∉ k :: entries ρ k := by
  intro k hk
  cases k with
  | readyQueue => simp [entries]
  | semWaiters s => simpa [entries] using hsems s
  | eventWaiters e => simpa [entries] using hevents e hk
  | link | block => exact hk.elim

variable [DecidableEq ι] [DecidableEq ε]

theorem Refines.readyQueue_empty (h : Refines σ ρ) :
    isListEmpty σ.memory .readyQueue = true ↔ ρ.readyQueue = [] := by
  rw [(h.lists.wellFormed _ (readyQueue_inUse ρ)).isListEmpty_iff]
  exact List.map_eq_nil_iff

theorem Refines.semWaiters_empty (h : Refines σ ρ) (s : ι) :
    isListEmpty σ.memory (.semWaiters s) = true ↔ (ρ.sems s).waiters = [] := by
  rw [(h.lists.wellFormed _ (semWaiters_inUse ρ s)).isListEmpty_iff]
  exact List.map_eq_nil_iff

/-- Activating a thread that is not ready. -/
theorem Refines.insertReady (h : Refines σ ρ) {t : PUThread} (ht : t ∉ ρ.readyQueue)
    (cause : UThread.Cause ι ε) :
    Refines (insertReady t σ) (UThread.insertReady cause t ρ) := by
  have hop := h.lists.insertTail (readyQueue_inUse ρ) (link_unlinked ht)
  refine { h with lists := Represents.congr hop Set.Subset.rfl fun k _ => ?_ }
  cases k <;> simp [entries, UThread.insertReady]

omit [DecidableEq ι] [DecidableEq ε] in
/-- The log has no counterpart on the lists. -/
theorem Refines.record (h : Refines σ ρ) (entry : UThread.Entry ι ε) :
    Refines σ (UThread.record entry ρ) := { h with }

/-- Extraction takes the head of the ready queue, or else the main thread. -/
theorem Refines.extractNextThread (h : Refines σ ρ) :
    ∃ τ, LinkedUThread.extractNextThread σ = some ((UThread.extractNextThread ρ).1, τ) ∧
      Refines τ (UThread.extractNextThread ρ).2 := by
  unfold LinkedUThread.extractNextThread UThread.extractNextThread
  have hempty := h.readyQueue_empty
  cases hq : ρ.readyQueue with
  | nil => 
    rw [if_pos (hempty.mpr hq)]
    exact ⟨σ, by rw [h.mainThread], h⟩
  | cons t rest =>
    have hop := h.lists.removeHead (readyQueue_inUse ρ)
    have hhead : (removeHeadList σ.memory .readyQueue).1 = .link t := by
      simpa [entries, hq] using hop.1
    rw [if_neg fun he => by simp [hempty.mp he] at hq]
    refine ⟨{ σ with memory := (removeHeadList σ.memory .readyQueue).2 }, ?_, ?_⟩
    · simp [hhead, uthreadOf]
    · refine { h with lists := Represents.congr hop.2 Set.Subset.rfl fun k _ => ?_ }
      cases k <;> simp [entries, UThread.record, hq]

/-- Both libraries switch to the same thread. -/
theorem Refines.schedule (h : Refines σ ρ) (frame : Frame ι ε) :
    ∃ τ, LinkedUThread.schedule frame σ = some τ ∧ Refines τ (UThread.schedule frame ρ) := by
  obtain ⟨τ, hnext, hτ⟩ := h.extractNextThread
  refine ⟨_, by rw [LinkedUThread.schedule, hnext], ?_⟩
  have hcontext : (contextSwitch frame (UThread.extractNextThread ρ).1 τ).context =
      (UThread.schedule frame ρ).context := by
    cases hr : (UThread.extractNextThread ρ).2.runningThread <;>
      simp only [contextSwitch, UThread.schedule, UThread.contextSwitch, hτ.context,
        hτ.runningThread, hr]
  exact { hτ with runningThread := rfl, context := hcontext }

omit [DecidableEq ε] in
theorem sems_setWaiters (ρ : UThread.State ι ε) (s s' : ι) (ws : List UThread.SemWaitBlock) :
    (UThread.setSem s { ρ.sems s with waiters := ws } ρ).sems s' =
      { ρ.sems s' with waiters := if s' = s then ws else (ρ.sems s').waiters } := by
  by_cases hs : s' = s
  · subst hs
    simp [UThread.setSem]
  · simp [UThread.setSem, hs]

omit [DecidableEq ε] in
theorem sems_setUnits (ρ : UThread.State ι ε) (s s' : ι) (units : ℤ) :
    (UThread.setSem s { ρ.sems s with units := units } ρ).sems s' =
      { ρ.sems s' with units := if s' = s then units else (ρ.sems s').units } := by
  by_cases hs : s' = s
  · subst hs
    simp [UThread.setSem]
  · simp [UThread.setSem, hs]

omit [DecidableEq ι] in
theorem events_setWaiters (ρ : UThread.State ι ε) (e e' : ε) (ts : List PUThread) :
    (UThread.setEvent e { ρ.events e with waiters := ts } ρ).events e' =
      { ρ.events e' with waiters := if e' = e then ts else (ρ.events e').waiters } := by
  by_cases he : e' = e
  · subst he
    simp [UThread.setEvent]
  · simp [UThread.setEvent, he]

/-- A wait block enters the list of a semaphore. -/
theorem Refines.linkSem (h : Refines σ ρ) {t : PUThread} (ht : ρ.runningThread = some t)
    (hfree : ∀ s, ∀ w ∈ (ρ.sems s).waiters, w.thread ≠ t)
    (hevents : ∀ e, (ρ.events e).signaled = false → t ∉ (ρ.events e).waiters)
    (s : ι) (units : ℤ) :
    Refines { initSemWaitBlock t units σ with
        memory := insertTailList σ.memory (.semWaiters s) (.block t) }
      (UThread.setSem s { ρ.sems s with waiters := (ρ.sems s).waiters ++ [⟨t, units⟩] } ρ) := by
  have hop := h.lists.insertTail (semWaiters_inUse ρ s) (block_unlinked hfree hevents)
  refine { h with
    lists := Represents.congr hop Set.Subset.rfl fun k _ => ?_
    units := fun s' => (h.units s').trans (by rw [sems_setWaiters])
    limit := fun s' => (h.limit s').trans (by rw [sems_setWaiters])
    semBlocks := fun s' w hw => ?_
    eventBlocks := fun e he u hu => ?_ }
  · cases k with
    | semWaiters s' =>
      by_cases hs : s' = s
      · subst hs
        simp [entries, sems_setWaiters]
      · simp [entries, sems_setWaiters, hs]
    | readyQueue | eventWaiters | link | block => simp [entries, UThread.setSem]
  · have hmem : w ∈ (ρ.sems s').waiters ∨ w = ⟨t, units⟩ := by
      rw [sems_setWaiters] at hw
      by_cases hs : s' = s
      · subst hs
        simpa using hw
      · exact .inl (by simpa [hs] using hw)
    cases hmem with
    | inl hold =>
      have hne := hfree s' w hold
      simpa [initSemWaitBlock, initWaitBlock, hne] using h.semBlocks s' w hold
    | inr hnew =>
      rw [hnew]
      simp [initSemWaitBlock, initWaitBlock, h.runningThread, ht]
  · have hne : u ≠ t := fun heq => hevents e he (heq ▸ hu)
    simpa [initSemWaitBlock, initWaitBlock, hne] using h.eventBlocks e he u hu

/-- A wait block enters the list of an event. -/
theorem Refines.linkEvent (h : Refines σ ρ) {t : PUThread} (ht : ρ.runningThread = some t)
    (hfree : ∀ s, ∀ w ∈ (ρ.sems s).waiters, w.thread ≠ t)
    (hevents : ∀ e, (ρ.events e).signaled = false → t ∉ (ρ.events e).waiters)
    {e : ε} (he : (ρ.events e).signaled = false) :
    Refines { initWaitBlock t σ with
        memory := insertTailList σ.memory (.eventWaiters e) (.block t) }
      (UThread.setEvent e { ρ.events e with waiters := (ρ.events e).waiters ++ [t] } ρ) := by
  have hop := h.lists.insertTail (eventWaiters_inUse.mpr he) (block_unlinked hfree hevents)
  refine { h with
    lists := Represents.congr hop (fun k hk => ?_) fun k _ => ?_
    signaled := fun e' => (h.signaled e').trans (by rw [events_setWaiters])
    semBlocks := fun s w hw => ?_
    eventBlocks := fun e' he' u hu => ?_ }
  · cases k with
    | eventWaiters e' =>
      rw [eventWaiters_inUse, events_setWaiters] at hk
      exact hk
    | readyQueue | semWaiters => trivial
    | link | block => exact hk.elim
  · cases k with
    | eventWaiters e' =>
      by_cases hee : e' = e
      · subst hee
        simp [entries, events_setWaiters]
      · simp [entries, events_setWaiters, hee]
    | readyQueue | semWaiters | link | block => simp [entries, UThread.setEvent]
  · have hne := hfree s w hw
    simpa [initWaitBlock, hne] using h.semBlocks s w hw
  · rw [events_setWaiters] at he' hu
    by_cases hut : u = t
    · rw [hut]
      simp [initWaitBlock, h.runningThread, ht]
    · have hmem : u ∈ (ρ.events e').waiters := by
        by_cases hee : e' = e
        · subst hee
          simpa [hut] using hu
        · simpa [hee] using hu
      simpa [initWaitBlock, hut] using h.eventBlocks e' he' u hmem

omit [DecidableEq ε] in
/-- The units of a semaphore change. -/
theorem Refines.setUnits (h : Refines σ ρ) (s : ι) (units : ℤ) :
    Refines (LinkedUThread.setUnits s units σ)
      (UThread.setSem s { ρ.sems s with units := units } ρ) := by
  refine { h with
    lists := Represents.congr h.lists Set.Subset.rfl fun k _ => ?_
    units := fun s' => ?_
    limit := fun s' => (h.limit s').trans (by rw [sems_setUnits])
    semBlocks := fun s' w hw => h.semBlocks s' w (by rwa [sems_setUnits] at hw) }
  · cases k with
    | semWaiters s' => simp only [entries, sems_setUnits]
    | readyQueue | eventWaiters | link | block => rfl
  · rw [sems_setUnits]
    by_cases hs : s' = s
    · subst hs
      simp [LinkedUThread.setUnits]
    · simpa [LinkedUThread.setUnits, hs] using h.units s'

/-- The first wait block leaves the list of a semaphore. -/
theorem Refines.unlinkSem (h : Refines σ ρ) (s : ι) {w : UThread.SemWaitBlock}
    {rest : List UThread.SemWaitBlock} (hw : (ρ.sems s).waiters = w :: rest) :
    Refines { σ with memory := (removeHeadList σ.memory (.semWaiters s)).2 }
      (UThread.setSem s { ρ.sems s with waiters := rest } ρ) := by
  have hop := (h.lists.removeHead (semWaiters_inUse ρ s)).2
  refine { h with
    lists := Represents.congr hop Set.Subset.rfl fun k _ => ?_
    units := fun s' => (h.units s').trans (by rw [sems_setWaiters])
    limit := fun s' => (h.limit s').trans (by rw [sems_setWaiters])
    semBlocks := fun s' v hv => h.semBlocks s' v ?_ }
  · cases k with
    | semWaiters s' =>
      by_cases hs : s' = s
      · subst hs
        simp [entries, sems_setWaiters, hw]
      · simp [entries, sems_setWaiters, hs]
    | readyQueue | eventWaiters | link | block => simp [entries, UThread.setSem]
  · rw [sems_setWaiters] at hv
    by_cases hs : s' = s
    · subst hs
      rw [if_pos rfl] at hv
      rw [hw]
      exact List.mem_cons_of_mem w hv
    · rwa [if_neg hs] at hv

end Lists

section Loops

variable [DecidableEq ι] [DecidableEq ε] {σ : State ι ε} {ρ : UThread.State ι ε}

omit [DecidableEq ι] [DecidableEq ε] in
/-- The first entry of a semaphore's list, as the loop of `sem_post` reads it. -/
theorem Refines.semWaiters_flink (h : Refines σ ρ) (s : ι) :
    (σ.memory (.semWaiters s)).flink =
      ((ρ.sems s).waiters.map fun w => Node.block w.thread).headD (.semWaiters s) :=
  (h.lists.wellFormed _ (semWaiters_inUse ρ s)).flink_head

/-- A round of the loop in `sem_post`: the first waiter is unlinked and made ready. -/
theorem Refines.release (h : Refines σ ρ) {s : ι} {w : UThread.SemWaitBlock}
    {rest : List UThread.SemWaitBlock} (hw : (ρ.sems s).waiters = w :: rest)
    (hready : w.thread ∉ ρ.readyQueue) (units : ℤ) :
    Refines (LinkedUThread.insertReady w.thread
        { LinkedUThread.setUnits s units σ with
          memory := (removeHeadList σ.memory (.semWaiters s)).2 })
      (UThread.utActivate (.posted s) w.thread (UThread.record (.released s w.thread w.units)
        (UThread.setSem s { ρ.sems s with waiters := rest, units := units } ρ))) := by
  have hunits := h.setUnits s units
  have hfirst : ((UThread.setSem s { ρ.sems s with units := units } ρ).sems s).waiters =
      w :: rest := by
    rw [sems_setUnits]
    exact hw
  have hunlinked := hunits.unlinkSem s hfirst
  have hboth : UThread.setSem s
      { (UThread.setSem s { ρ.sems s with units := units } ρ).sems s with waiters := rest }
      (UThread.setSem s { ρ.sems s with units := units } ρ) =
        UThread.setSem s { ρ.sems s with waiters := rest, units := units } ρ := by
    simp [UThread.setSem]
  rw [hboth] at hunlinked
  exact (hunlinked.record (.released s w.thread w.units)).insertReady hready (.posted s)

/-- The loop of `sem_post` ends, with enough fuel for one round more than there are
waiters, and serves the same threads. -/
theorem Refines.semPostLoop {s : ι} (blocks : List UThread.SemWaitBlock) :
    ∀ {σ : State ι ε} {ρ : UThread.State ι ε} {loc : PUThread → Option (Place ι ε)},
      Refines σ ρ → Conserved ρ loc → ρ.runningThread ≠ some .main →
      (ρ.sems s).waiters = blocks →
      ∃ τ, LinkedUThread.semPostLoop s (blocks.length + 1) σ = some τ ∧
        Refines τ (UThread.semPostLoop s blocks ρ) := by
  induction blocks with
  | nil =>
    intro σ ρ loc h _ _ hw
    have hself : (σ.memory (.semWaiters s)).flink = .semWaiters s := by
      simp [h.semWaiters_flink, hw]
    exact ⟨σ, by rw [LinkedUThread.semPostLoop, if_neg fun hc => hc.2 hself], h⟩
  | cons w rest ih =>
    intro σ ρ loc h hc hr hw
    have hflink : (σ.memory (.semWaiters s)).flink = .block w.thread := by
      simp [h.semWaiters_flink, hw]
    obtain ⟨hthread, hrequest⟩ := h.semBlocks s w (by simp [hw])
    rw [UThread.semPostLoop, List.length_cons, LinkedUThread.semPostLoop, hflink, h.units]
    by_cases hpos : 0 < (ρ.sems s).units
    · rw [if_pos ⟨hpos, by simp⟩, if_pos hpos]
      simp only [waitBlockOf, hrequest]
      by_cases hless : (ρ.sems s).units < w.units
      · exact ⟨σ, by rw [if_pos hless], by rwa [if_pos hless]⟩
      · rw [if_neg hless, if_neg hless]
        have hready : w.thread ∉ ρ.readyQueue := by
          have hloc : loc w.thread = some (.sem s) := hc.placed.pos_iff.mp (by simp [occ, hw])
          have hzero : occ ρ w.thread .ready = 0 := by
            rw [hc.placed w.thread .ready, hloc, if_neg (by simp)]
          exact List.count_eq_zero.mp hzero
        have hround := h.release hw hready (wrapInt ((ρ.sems s).units - w.units))
        obtain ⟨loc', hc'⟩ := conserved_release hc hr hw
          (wrapInt ((ρ.sems s).units - w.units)) (ρ.sems s).limit
        obtain ⟨τ, hloop, hτ⟩ := ih hround hc' hr
          (by simp [UThread.utActivate, UThread.insertReady, UThread.record, UThread.setSem])
        refine ⟨τ, ?_, hτ⟩
        have hact : (LinkedUThread.setUnits s (wrapInt ((ρ.sems s).units - w.units)) σ).blockThread
            w.thread = some w.thread := hthread
        rw [hact]
        exact hloop
    · rw [if_neg fun hc => hpos hc.1, if_neg hpos]
      exact ⟨σ, rfl, h⟩

/-- The walk of `event_set` reaches the head again, with enough fuel for one round
more than there are waiters left, and appends their threads to the ready queue. -/
theorem eventSetLoop_walk {heads : Set (Node ι ε)} {e : ε}
    (hready : Node.readyQueue ∈ heads) (he : Node.eventWaiters e ∈ heads) (ts : List PUThread) :
    ∀ {σ : State ι ε} {lists : Node ι ε → List (Node ι ε)} (seen : List (Node ι ε)),
      Represents σ.memory heads lists →
      lists (.eventWaiters e) = seen ++ ts.map .block →
      (∀ t ∈ ts, σ.blockThread t = some t) → ts.Nodup →
      (∀ t ∈ ts, ∀ k ∈ heads, Node.link t ∉ k :: lists k) →
      ∃ m, eventSetLoop e (ts.length + 1) ((ts.map .block).headD (.eventWaiters e)) σ =
          some { σ with memory := m } ∧
        Represents m heads
          (Function.update lists .readyQueue (lists .readyQueue ++ ts.map .link)) := by
  induction ts with
  | nil =>
    intro σ lists seen hrep _ _ _ _
    refine ⟨σ.memory, by simp [eventSetLoop], ?_⟩
    simpa using hrep
  | cons t rest ih =>
    intro σ lists seen hrep hlist hblocks hnodup hlinks
    obtain ⟨hfirst, hrest⟩ := List.nodup_cons.mp hnodup
    have hop := hrep.insertTail hready (hlinks t List.mem_cons_self)
    have hstill : Function.update lists .readyQueue (lists .readyQueue ++ [.link t])
        (.eventWaiters e) = seen ++ .block t :: rest.map .block := by
      simp [hlist]
    have hring := hstill ▸ hop.wellFormed _ he
    have hflink : ((insertReady t σ).memory (.block t)).flink =
        (rest.map .block).headD (.eventWaiters e) := hring.flink_entry
    obtain ⟨m, hloop, hm⟩ := ih (σ := insertReady t σ) (seen ++ [.block t]) hop
      (by simp [hlist])
      (fun u hu => hblocks u (List.mem_cons_of_mem t hu)) hrest fun u hu k hk => by
        have hold := hlinks u (List.mem_cons_of_mem t hu) k hk
        have hne : u ≠ t := fun heq => hfirst (heq ▸ hu)
        by_cases hk : k = .readyQueue
        · subst hk
          simpa [hne] using hold
        · simpa [hk] using hold
    refine ⟨m, ?_, ?_⟩
    · simp only [List.map_cons, List.headD_cons, List.length_cons, eventSetLoop, waitBlockOf]
      rw [if_neg (by simp), hblocks t List.mem_cons_self]
      simp only [utActivate, Option.bind_some, hflink]
      exact hloop
    · simpa using hm

/-- `event_set` on an event that was not set before. -/
theorem Refines.eventSet (h : Refines σ ρ) {loc : PUThread → Option (Place ι ε)}
    (hc : Conserved ρ loc) {e : ε} (he : (ρ.events e).signaled = false) :
    ∃ fuel τ, LinkedUThread.eventSet fuel e σ = some τ ∧ Refines τ (UThread.eventSet e ρ) := by
  have hocc : ∀ t, occ ρ t (.event e) = (ρ.events e).waiters.count t := by
    intro t
    simp [occ, he]
  have hplace : ∀ t ∈ (ρ.events e).waiters, loc t = some (.event e) := by
    intro t ht
    apply hc.placed.pos_iff.mp
    rw [hocc]
    exact List.count_pos_iff.mpr ht
  have hnodup : (ρ.events e).waiters.Nodup := by
    rw [List.nodup_iff_count_le_one]
    intro t
    rw [← hocc, hc.placed t (.event e)]
    split <;> omega
  have hnotready : ∀ t ∈ (ρ.events e).waiters, t ∉ ρ.readyQueue := by
    intro t ht
    have hzero : occ ρ t .ready = 0 := by
      rw [hc.placed t .ready, hplace t ht, if_neg (by simp)]
    exact List.count_eq_zero.mp hzero
  obtain ⟨m, hloop, hm⟩ := eventSetLoop_walk (readyQueue_inUse ρ) (eventWaiters_inUse.mpr he)
    (σ := { σ with signaled := Function.update σ.signaled e true }) (ρ.events e).waiters []
    h.lists rfl (h.eventBlocks e he) hnodup fun t ht => link_unlinked (hnotready t ht)
  refine ⟨(ρ.events e).waiters.length + 1,
    { σ with memory := m, signaled := Function.update σ.signaled e true }, ?_, ?_⟩
  · have hflink := (h.lists.wellFormed _ (eventWaiters_inUse.mpr he)).flink_head
    rw [LinkedUThread.eventSet]
    dsimp only
    rw [hflink]
    exact hloop
  · obtain ⟨hready, hrun, hmain, hnumber, hdescriptors, hsems, hevents, -, -⟩ :=
      eventSet_fields e ρ
    have hcontext := eventSet_context e ρ
    have hevent : ∀ e', (UThread.eventSet e ρ).events e' = { ρ.events e' with
        signaled := if e' = e then true else (ρ.events e').signaled } := by
      intro e'
      rw [hevents]
      by_cases hee : e' = e
      · subst hee
        simp
      · simp [hee]
    have hstill : ∀ e', ((UThread.eventSet e ρ).events e').signaled = false →
        (ρ.events e').signaled = false := by
      intro e' he'
      rw [hevent] at he'
      by_cases hee : e' = e
      · simp [hee] at he'
      · simpa [hee] using he'
    refine ⟨Represents.congr hm (fun k hk => ?_) fun k hk => ?_, h.runningThread.trans hrun.symm,
      h.mainThread.trans hmain.symm, h.numberOfThreads.trans hnumber.symm,
      h.descriptors.trans hdescriptors.symm, h.context.trans hcontext.symm,
      fun s => (h.units s).trans (by rw [hsems]), fun s => (h.limit s).trans (by rw [hsems]),
      fun e' => ?_, fun s w hw => h.semBlocks s w (by rwa [hsems] at hw),
      fun e' he' t ht => h.eventBlocks e' (hstill e' he') t (by rwa [hevent] at ht)⟩
    · cases k with
      | eventWaiters e' => exact hstill e' hk
      | readyQueue | semWaiters => trivial
      | link | block => exact hk.elim
    · cases k <;> simp [entries, hready, hsems, hevent]
    · rw [hevent]
      by_cases hee : e' = e
      · subst hee
        simp
      · simp [hee, h.signaled]

end Loops

section Commands

variable [DecidableEq ι] [DecidableEq ε] {σ τ : State ι ε} {ρ ρ' : UThread.State ι ε}

/-- More fuel does not change what the loop of `sem_post` returns. -/
theorem semPostLoop_fuel {s : ι} {fuel : ℕ} (k : ℕ) :
    ∀ {σ : State ι ε}, semPostLoop s fuel σ = some τ → semPostLoop s (fuel + k) σ = some τ := by
  induction fuel with
  | zero => exact fun hloop => by simp [semPostLoop] at hloop
  | succ fuel ih =>
    intro σ hloop
    rw [Nat.add_right_comm]
    rw [semPostLoop] at hloop ⊢
    split at hloop
    next hround =>
      rw [if_pos hround]
      cases hframe : waitBlockOf (σ.memory (.semWaiters s)).flink with
      | none => simp [hframe] at hloop
      | some frame =>
        simp only [hframe] at hloop ⊢
        split at hloop
        next hless => rwa [if_pos hless]
        next hless =>
          rw [if_neg hless]
          obtain ⟨σ', hact, hrest⟩ := Option.bind_eq_some_iff.mp hloop
          exact Option.bind_eq_some_iff.mpr ⟨σ', hact, ih hrest⟩
    next hround => rwa [if_neg hround]

/-- More fuel does not change what the walk of `event_set` returns. -/
theorem eventSetLoop_fuel {e : ε} {fuel : ℕ} (k : ℕ) :
    ∀ {curr : Node ι ε} {σ : State ι ε}, eventSetLoop e fuel curr σ = some τ →
      eventSetLoop e (fuel + k) curr σ = some τ := by
  induction fuel with
  | zero => exact fun hloop => by simp [eventSetLoop] at hloop
  | succ fuel ih =>
    intro curr σ hloop
    rw [Nat.add_right_comm]
    rw [eventSetLoop] at hloop ⊢
    split at hloop
    next hend => rwa [if_pos hend]
    next hend =>
      rw [if_neg hend]
      cases hframe : waitBlockOf curr with
      | none => simp [hframe] at hloop
      | some frame =>
        simp only [hframe] at hloop ⊢
        obtain ⟨σ', hact, hrest⟩ := Option.bind_eq_some_iff.mp hloop
        exact Option.bind_eq_some_iff.mpr ⟨σ', hact, ih hrest⟩

theorem next_fuel {c : Command ι ε} {fuel : ℕ} (k : ℕ) (hstep : next fuel σ c = some τ) :
    next (fuel + k) σ c = some τ := by
  cases c with
  | create | enterRun | leaveRun => exact hstep
  | call c =>
    simp only [next] at hstep ⊢
    split at hstep
    next b hr =>
      split at hstep
      next hm =>
        rw [if_pos hm]
        cases c with
        | semPost s units => exact semPostLoop_fuel k hstep
        | eventSet e => exact eventSetLoop_fuel k hstep
        | utCreate | utYield | utExit | semWait | eventWait => exact hstep
      next => cases hstep
    next => cases hstep

/-- The amount of fuel does not decide what a step does. -/
theorem next_unique {c : Command ι ε} {fuel fuel' : ℕ} {τ' : State ι ε}
    (hstep : next fuel σ c = some τ) (hstep' : next fuel' σ c = some τ') : τ = τ' := by
  have hmore := next_fuel fuel' hstep
  rw [Nat.add_comm, next_fuel fuel hstep'] at hmore
  exact (Option.some.inj hmore).symm

theorem Refines.utCreate (h : Refines σ ρ) {b : ℕ} (hfree : PUThread.user b ∉ ρ.readyQueue) :
    ∃ τ, LinkedUThread.utCreate b σ = some τ ∧ Refines τ (UThread.utCreate b ρ) := by
  have hnew : Refines
      { σ with
        descriptors := b :: σ.descriptors
        context := Function.update σ.context (.user b) .internalStart
        numberOfThreads := σ.numberOfThreads + 1 }
      { ρ with
        descriptors := b :: ρ.descriptors
        context := Function.update ρ.context (.user b) .internalStart
        numberOfThreads := ρ.numberOfThreads + 1 } :=
    { h with
      numberOfThreads := congrArg (· + 1) h.numberOfThreads
      descriptors := congrArg (b :: ·) h.descriptors
      context := by rw [h.context] }
  exact ⟨_, rfl, hnew.insertReady hfree .created⟩

theorem Refines.utYield (h : Refines σ ρ) {t : PUThread} (hr : ρ.runningThread = some t)
    (hfree : t ∉ ρ.readyQueue) :
    ∃ τ, LinkedUThread.utYield σ = some τ ∧ Refines τ (UThread.utYield ρ) := by
  rw [UThread.utYield_eq hr, LinkedUThread.utYield]
  by_cases hq : ρ.readyQueue = []
  · rw [if_pos hq, if_pos (h.readyQueue_empty.mpr hq)]
    exact ⟨σ, rfl, h⟩
  · rw [if_neg hq, if_neg fun he => hq (h.readyQueue_empty.mp he), h.runningThread, hr]
    exact (h.insertReady hfree .yielded).schedule .utYield

theorem Refines.utExit (h : Refines σ ρ) {b : ℕ} (hr : ρ.runningThread = some (.user b)) :
    ∃ τ, LinkedUThread.utExit σ = some τ ∧ Refines τ (UThread.utExit ρ) := by
  have hleft : Refines { σ with numberOfThreads := σ.numberOfThreads - 1 }
      { ρ with numberOfThreads := ρ.numberOfThreads - 1 } :=
    { h with numberOfThreads := congrArg (· - 1) h.numberOfThreads }
  obtain ⟨τ, hnext, hτ⟩ := hleft.extractNextThread
  have hr' : σ.runningThread = some (.user b) := h.runningThread.trans hr
  refine ⟨internalExit (.user b)
    (UThread.extractNextThread { ρ with numberOfThreads := ρ.numberOfThreads - 1 }).1 τ, ?_, ?_⟩
  · simp only [LinkedUThread.utExit]
    rw [hnext, hr']
  · have habove : UThread.utExit ρ = UThread.internalExit (.user b)
        (UThread.extractNextThread { ρ with numberOfThreads := ρ.numberOfThreads - 1 }).1
        (UThread.extractNextThread { ρ with numberOfThreads := ρ.numberOfThreads - 1 }).2 := by
      simp only [UThread.utExit]
      rw [hr]
    rw [habove]
    exact { hτ with runningThread := rfl, descriptors := congrArg (List.erase · b) hτ.descriptors }

theorem Refines.semWait (h : Refines σ ρ) {t : PUThread} (hr : ρ.runningThread = some t)
    (hfree : ∀ s, ∀ w ∈ (ρ.sems s).waiters, w.thread ≠ t)
    (hevents : ∀ e, (ρ.events e).signaled = false → t ∉ (ρ.events e).waiters)
    (s : ι) (units : ℤ) :
    ∃ τ, LinkedUThread.semWait s units σ = some τ ∧ Refines τ (UThread.semWait s units ρ) := by
  simp only [LinkedUThread.semWait, UThread.semWait, h.runningThread, hr, h.semWaiters_empty,
    h.units]
  by_cases htake : (ρ.sems s).waiters = [] ∧ (ρ.sems s).units ≥ units
  · rw [if_pos htake, if_pos htake]
    exact ⟨_, rfl, ((h.record _).setUnits s _).record _⟩
  · rw [if_neg htake, if_neg htake]
    exact (((h.record (.called s t units)).linkSem hr hfree hevents s units).record
      (.blocked s t units)).schedule (.semWait s units)

theorem Refines.semPost (h : Refines σ ρ) {loc : PUThread → Option (Place ι ε)}
    (hc : Conserved ρ loc) (hr : ρ.runningThread ≠ some .main) (s : ι) (units : ℤ) :
    ∃ fuel τ, LinkedUThread.semPost fuel s units σ = some τ ∧
      Refines τ (UThread.semPost s units ρ) := by
  have hclamp : LinkedUThread.clampedUnits s units σ =
      UThread.clampedUnits (ρ.sems s) units := by
    simp only [LinkedUThread.clampedUnits, UThread.clampedUnits, h.units, h.limit]
  have hmore := (h.setUnits s (UThread.clampedUnits (ρ.sems s) units)).record
    (.posted s ρ.runningThread units (UThread.clampedUnits (ρ.sems s) units - (ρ.sems s).units))
  have hc' := conserved_deposit hc s units
    (UThread.clampedUnits (ρ.sems s) units - (ρ.sems s).units)
    (UThread.clampedUnits (ρ.sems s) units)
  obtain ⟨τ, hloop, hτ⟩ := Refines.semPostLoop (s := s) (ρ.sems s).waiters hmore hc' hr
    (by simp [UThread.record, UThread.setSem])
  exact ⟨_, τ, by rw [LinkedUThread.semPost, hclamp, hloop], hτ⟩

theorem Refines.eventWait (h : Refines σ ρ) {t : PUThread} (hr : ρ.runningThread = some t)
    (hfree : ∀ s, ∀ w ∈ (ρ.sems s).waiters, w.thread ≠ t)
    (hevents : ∀ e, (ρ.events e).signaled = false → t ∉ (ρ.events e).waiters) (e : ε) :
    ∃ τ, LinkedUThread.eventWait e σ = some τ ∧ Refines τ (UThread.eventWait e ρ) := by
  simp only [LinkedUThread.eventWait, UThread.eventWait, h.runningThread, hr, h.signaled]
  by_cases he : (ρ.events e).signaled = false
  · rw [if_pos he, if_pos he]
    exact ((h.linkEvent hr hfree hevents he).record (.waited e t)).schedule (.eventWait e)
  · rw [if_neg he, if_neg he]
    exact ⟨σ, rfl, h⟩

theorem Refines.utRun (h : Refines σ ρ) (hstep : UThread.utRun ρ = some ρ') :
    ∃ τ, LinkedUThread.utRun σ = some τ ∧ Refines τ ρ' := by
  simp only [UThread.utRun] at hstep
  split at hstep
  next hr =>
    rw [LinkedUThread.utRun, if_pos (h.runningThread.trans hr)]
    split at hstep
    next hq =>
      cases hstep
      exact ⟨σ, if_pos (h.readyQueue_empty.mpr hq), h⟩
    next hq =>
      cases hstep
      rw [if_neg fun he => hq (h.readyQueue_empty.mp he)]
      have hinside : Refines { σ with mainThread := some .main, runningThread := some .main }
          { ρ with mainThread := some .main, runningThread := some .main } :=
        { h with mainThread := rfl, runningThread := rfl }
      exact hinside.schedule .utRun
  next => cases hstep

theorem Refines.utRunReturn (h : Refines σ ρ) (hstep : UThread.utRunReturn ρ = some ρ') :
    ∃ τ, LinkedUThread.utRunReturn σ = some τ ∧ Refines τ ρ' := by
  simp only [UThread.utRunReturn] at hstep
  split at hstep
  next hend =>
    cases hstep
    have hend' : isListEmpty σ.memory .readyQueue = true ∧ σ.numberOfThreads = 0 :=
      ⟨h.readyQueue_empty.mpr hend.1, h.numberOfThreads.trans hend.2⟩
    exact ⟨_, if_pos hend', { h with runningThread := rfl, mainThread := rfl }⟩
  next => cases hstep

/-- Programs that set each event at most once. A second call would walk along the
wait blocks that the first one left linked in frames that are gone. -/
def FirstSet (signaled : ε → Bool) : Command ι ε → Prop
  | .call (.eventSet e) => signaled e = false
  | _ => True

/-- A command that the sequences allow also ends on the linked lists, and keeps the
two in step. -/
theorem Refines.next (h : Refines σ ρ) {loc : PUThread → Option (Place ι ε)}
    (hc : Conserved ρ loc) {c : Command ι ε} (hset : FirstSet σ.signaled c)
    (hstep : UThread.next ρ c = some ρ') :
    ∃ fuel τ, LinkedUThread.next fuel σ c = some τ ∧ Refines τ ρ' := by
  cases c with
  | create b =>
    obtain ⟨hr, hb, rfl⟩ := UThread.next_create hstep
    have hloc : loc (.user b) = none := by
      simpa using mt (hc.allocated b).mp hb
    have hfree := not_linked hc.placed (t := .user b) fun k hk => by simp [hloc] at hk
    obtain ⟨τ, hrun, hτ⟩ := h.utCreate hfree.1
    refine ⟨0, τ, ?_, hτ⟩
    rw [LinkedUThread.next, if_pos ⟨h.runningThread.trans hr, h.descriptors ▸ hb⟩, hrun]
  | enterRun =>
    obtain ⟨τ, hrun, hτ⟩ := h.utRun hstep
    exact ⟨0, τ, hrun, hτ⟩
  | leaveRun =>
    simp only [UThread.next] at hstep
    split at hstep
    next hr =>
      obtain ⟨τ, hrun, hτ⟩ := h.utRunReturn hstep
      refine ⟨0, τ, ?_, hτ⟩
      rw [LinkedUThread.next, if_pos (h.runningThread.trans hr), hrun]
    next => cases hstep
  | call c =>
    obtain ⟨b, hr, hm, rfl⟩ := UThread.next_call hstep
    have hm' : mallocOk σ c = true := by
      rw [← hm]
      cases c <;> simp [mallocOk, UThread.mallocOk, h.descriptors]
    have hperform : ∃ fuel τ, perform fuel c σ = some τ ∧ Refines τ (UThread.perform c ρ) := by
      obtain ⟨hready, hfree, hevents⟩ := not_linked hc.placed (caller_running hc hr)
      cases c with
      | utCreate b' =>
        have hloc : loc (.user b') = none := by
          simpa [UThread.mallocOk] using mt (hc.allocated b').mp (by simpa [UThread.mallocOk] using hm)
        have hnew := not_linked hc.placed (t := .user b') fun k hk => by simp [hloc] at hk
        exact ⟨0, h.utCreate hnew.1⟩
      | utYield => exact ⟨0, h.utYield hr hready⟩
      | utExit => exact ⟨0, h.utExit hr⟩
      | semWait s units => exact ⟨0, h.semWait hr hfree hevents s units⟩
      | semPost s units => exact h.semPost hc (by simp [hr]) s units
      | eventWait e => exact ⟨0, h.eventWait hr hfree hevents e⟩
      | eventSet e => exact h.eventSet hc ((h.signaled e).symm.trans hset)
    obtain ⟨fuel, τ, hrun, hτ⟩ := hperform
    refine ⟨fuel, τ, ?_, hτ⟩
    simp only [LinkedUThread.next, h.runningThread, hr]
    rw [if_pos hm', hrun]

/-- A command that the sequences refuse is refused on the linked lists. -/
theorem Refines.next_refused (h : Refines σ ρ) {c : Command ι ε}
    (hstep : UThread.next ρ c = none) (fuel : ℕ) : LinkedUThread.next fuel σ c = none := by
  cases c with
  | create b =>
    simp only [UThread.next, h.runningThread, h.descriptors, LinkedUThread.next] at hstep ⊢
    split at hstep
    next => cases hstep
    next hc => rw [if_neg hc]
  | enterRun =>
    simp only [UThread.next, UThread.utRun, LinkedUThread.next, LinkedUThread.utRun,
      h.runningThread] at hstep ⊢
    split at hstep
    next => split at hstep <;> cases hstep
    next hr => rw [if_neg hr]
  | leaveRun =>
    simp only [UThread.next, UThread.utRunReturn, LinkedUThread.next, LinkedUThread.utRunReturn,
      h.runningThread, h.readyQueue_empty, h.numberOfThreads] at hstep ⊢
    split at hstep
    next hr =>
      rw [if_pos hr]
      split at hstep
      next => cases hstep
      next hend => rw [if_neg hend]
    next hr => rw [if_neg hr]
  | call c =>
    have hm : mallocOk σ c = UThread.mallocOk ρ c := by
      cases c <;> simp [mallocOk, UThread.mallocOk, h.descriptors]
    simp only [UThread.next, LinkedUThread.next, h.runningThread, hm] at hstep ⊢
    cases hr : ρ.runningThread with
    | none => rfl
    | some t =>
      cases t with
      | main => rfl
      | user b =>
        simp only [hr] at hstep ⊢
        split at hstep
        next => cases hstep
        next hmalloc => rw [if_neg hmalloc]

end Commands

section Runs

variable [DecidableEq ι] [DecidableEq ε]

/-- The runs over linked lists that set each event at most once. -/
def linkedRuns (garbage : Memory (Node ι ε)) (units limit : ι → ℤ) :
    System (State ι ε) (Command ι ε) :=
  (linkedLibrary garbage units limit).restrict fun σ => FirstSet σ.signaled

/-- The same runs over sequences. -/
def sequenceRuns (units limit : ι → ℤ) : System (UThread.State ι ε) (Command ι ε) :=
  (UThread.library fun s => UThread.semInit (units s) (limit s)).restrict fun ρ =>
    FirstSet fun e => (ρ.events e).signaled

/-- The initialisations make every head a ring without entries. -/
theorem refines_initial (garbage : Memory (Node ι ε)) (units limit : ι → ℤ) :
    Refines (initial garbage units limit)
      (UThread.initial fun s => UThread.semInit (units s) (limit s)) := by
  have hempty : ∀ k, entries (UThread.initial (ε := ε) fun s =>
      UThread.semInit (units s) (limit s)) k = [] := by
    intro k
    cases k <;> rfl
  refine ⟨⟨fun k hk => ?_, fun k hk l hl hkl => ?_⟩, rfl, rfl, rfl, rfl, rfl, fun _ => rfl,
    fun _ => rfl, fun _ => rfl, fun _ _ hw => absurd hw List.not_mem_nil, fun _ _ _ ht =>
      absurd ht List.not_mem_nil⟩
  · have hhead : isHead k = true := by
      cases k with
      | readyQueue | semWaiters | eventWaiters => rfl
      | link | block => exact hk.elim
    rw [hempty]
    refine Links.Ring.frame (wellFormed_initListHead garbage k) fun x hx => ?_
    rw [List.mem_singleton.mp hx]
    simp [links, initial, hhead]
  · rw [hempty, hempty]
    simpa using Ne.symm hkl

/-- Where a thread is, in every run that sets each event at most once. -/
theorem conserved_sequenceRuns {units limit : ι → ℤ} {ρ : UThread.State ι ε}
    (h : (sequenceRuns units limit).Reachable ρ) : ∃ loc, Conserved ρ loc := by
  refine conserved_reachable (fun _ => rfl) (h.mono fun ρ c hset => ?_)
  cases c with
  | call c =>
    cases c with
    | eventSet e => exact .inl hset
    | utCreate | utYield | utExit | semWait | semPost | eventWait => trivial
  | create | enterRun | leaveRun => trivial

omit [DecidableEq ι] [DecidableEq ε] in
theorem Refines.firstSet {σ : State ι ε} {ρ : UThread.State ι ε} (h : Refines σ ρ)
    (c : Command ι ε) :
    FirstSet σ.signaled c ↔ FirstSet (fun e => (ρ.events e).signaled) c := by
  rw [funext h.signaled]

/-- The linked lists take the steps that the sequences take. -/
theorem sequences_lockstep (units limit : ι → ℤ) (garbage : Memory (Node ι ε)) :
    Lockstep (sequenceRuns units limit) (linkedRuns garbage units limit) fun ρ σ =>
      Refines σ ρ where
  init := by
    intro ρ hρ
    exact ⟨_, rfl, hρ ▸ refines_initial garbage units limit⟩
  step := by
    intro ρ σ c ρ' hρ _ h hstep
    obtain ⟨loc, hc⟩ := conserved_sequenceRuns hρ
    have hset := (h.firstSet c).mpr hstep.1
    obtain ⟨fuel, τ, hrun, hτ⟩ := h.next hc hset hstep.2
    exact ⟨τ, ⟨hset, fuel, hrun⟩, hτ⟩

/-- The sequences take the steps that the linked lists take. -/
theorem linked_lockstep (units limit : ι → ℤ) (garbage : Memory (Node ι ε)) :
    Lockstep (linkedRuns garbage units limit) (sequenceRuns units limit) Refines where
  init := by
    intro σ hσ
    exact ⟨_, rfl, hσ ▸ refines_initial garbage units limit⟩
  step := by
    intro σ ρ c τ _ hρ h hstep
    obtain ⟨loc, hc⟩ := conserved_sequenceRuns hρ
    obtain ⟨hset, fuel, hrun⟩ := hstep
    cases habove : UThread.next ρ c with
    | none => simp [h.next_refused habove fuel] at hrun
    | some ρ' =>
      obtain ⟨fuel', τ', hrun', hτ⟩ := h.next hc hset habove
      rw [next_unique hrun' hrun] at hτ
      exact ⟨ρ', ⟨(h.firstSet c).mp hset, habove⟩, hτ⟩

/-- The library on its intrusive lists and the library on sequences have the same
runs. Whatever the memory held before the initialisations, each command is
possible on the lists exactly when it is on the sequences, the pointer walks
end, and after every run the lists in use are rings of the queued entries. -/
theorem linked_library_agrees (units limit : ι → ℤ) (garbage : Memory (Node ι ε)) :
    (∀ trace σ, (linkedRuns garbage units limit).Run (initial garbage units limit) trace σ →
      ∃ trace' ρ, (sequenceRuns units limit).Run
          (UThread.initial fun s => UThread.semInit (units s) (limit s)) trace' ρ ∧
        trace'.map Transition.label = trace.map Transition.label ∧ Refines σ ρ) ∧
    (∀ trace ρ, (sequenceRuns units limit).Run
        (UThread.initial fun s => UThread.semInit (units s) (limit s)) trace ρ →
      ∃ trace' σ, (linkedRuns garbage units limit).Run (initial garbage units limit) trace' σ ∧
        trace'.map Transition.label = trace.map Transition.label ∧ Refines σ ρ) := by
  have hinit := refines_initial garbage units limit
  constructor
  · intro trace σ hrun
    exact (linked_lockstep units limit garbage).run hrun (.start rfl) (.start rfl) hinit
  · intro trace ρ hrun
    exact (sequences_lockstep units limit garbage).run hrun (.start rfl) (.start rfl) hinit

end Runs

/-- Two threads are created. Their entries form the ready queue, over a memory
whose link fields all pointed to one descriptor before. -/
theorem linked_library_agrees_two :
    ∃ trace σ, (linkedRuns (fun _ => ⟨.link .main, .link .main⟩) (fun _ => 1) (fun _ => 1)).Run
        (initial (fun _ => ⟨.link .main, .link .main⟩) (fun _ : Unit => 1) (fun _ => 1)) trace σ ∧
      trace.map Transition.label = [.create 0, .create 1] ∧
      WellFormed σ.memory (.readyQueue : Node Unit Unit) [.link (.user 0), .link (.user 1)] := by
  let ρ : UThread.State Unit Unit := UThread.initial fun _ => UThread.semInit 1 1
  have hnil := System.Run.nil (S := sequenceRuns (ι := Unit) (ε := Unit) (fun _ => 1) fun _ => 1) ρ
  have hfirst := hnil.snoc (a := Command.create 0) (u := UThread.utCreate 0 ρ) ⟨trivial, rfl⟩
  have hboth := hfirst.snoc (a := Command.create 1) (u := UThread.utCreate 1 (UThread.utCreate 0 ρ))
    ⟨trivial, rfl⟩
  obtain ⟨trace, σ, hrun, hlabels, h⟩ :=
    (linked_library_agrees (fun _ => 1) (fun _ => 1) fun _ => ⟨.link .main, .link .main⟩).2 _ _ hboth
  exact ⟨trace, σ, hrun, hlabels, h.lists.wellFormed _ (readyQueue_inUse _)⟩

end SistemasOperativos.LinkedUThreadRefinement
