import Mathlib.Tactic
import SistemasOperativos.UThreadConservation
import SistemasOperativos.UThreadSemaphore

/-!
# The bounded blocking queue of the user-thread tests

`queue_put` and `queue_get` are each cut at their `sem_wait`: the first part
may suspend the thread, the rest runs when `sem_wait` returns. A program may
have several queues and other semaphores. For each of the two semaphores of a
queue the units available and the threads that were granted a unit and have
not used it yet add up to what the list says.
-/

namespace SistemasOperativos.UThreadQueue

open TransitionRuns TokenPlaces UThread FifoSemaphore UThreadConservation UThreadSemaphore

/-- The semaphores of a program: two for each queue, and any others. -/
inductive QSem (κ ι : Type) where
  | hasItems (q : κ)
  | hasSpace (q : κ)
  | other (s : ι)
  deriving DecidableEq

/-- How far a thread is in the queue code. -/
inductive Pc (κ α : Type) where
  | idle
  | putting (q : κ) (item : α)
  | getting (q : κ)

/-- The library, the lists of the queues and the local state of the threads. -/
structure QState (κ ι α : Type) where
  /-- The user-thread library; the program uses no events. -/
  lib : State (QSem κ ι) Empty
  /-- Items of the nodes linked in each list, head first. -/
  list : κ → List α
  /-- Where each thread is. -/
  pc : PUThread → Pc κ α
  /-- Items inserted in each list so far, in order. -/
  inserted : κ → List α
  /-- Items removed from each list so far, in order, with the threads that got them. -/
  removed : κ → List (PUThread × α)
  /-- Set when `remove_head_list` is called on an empty list. -/
  underrun : κ → Bool

variable {κ ι α : Type} [DecidableEq κ] [DecidableEq ι]

/-- `queue_init` for every queue, besides the other semaphores. -/
def queueInit (size : κ → ℤ) (sems : ι → Semaphore) : QSem κ ι → Semaphore
  | .hasItems q => semInit 0 (size q)
  | .hasSpace q => semInit (size q) (size q)
  | .other s => sems s

/-- `queue_put` up to its `sem_wait`. -/
def queuePut (q : κ) (item : α) (t : PUThread) (x : QState κ ι α) : QState κ ι α :=
  { x with
    lib := semWait (.hasSpace q) 1 x.lib
    pc := Function.update x.pc t (.putting q item) }

/-- `queue_put` after its `sem_wait`. -/
def queuePutRest (q : κ) (item : α) (t : PUThread) (x : QState κ ι α) : QState κ ι α :=
  { x with
    list := Function.update x.list q (x.list q ++ [item])
    inserted := Function.update x.inserted q (x.inserted q ++ [item])
    pc := Function.update x.pc t .idle
    lib := semPost (.hasItems q) 1 x.lib }

/-- `queue_get` up to its `sem_wait`. -/
def queueGet (q : κ) (t : PUThread) (x : QState κ ι α) : QState κ ι α :=
  { x with
    lib := semWait (.hasItems q) 1 x.lib
    pc := Function.update x.pc t (.getting q) }

/-- `queue_get` after its `sem_wait`. An empty list has no head to remove. -/
def queueGetRest (q : κ) (t : PUThread) (x : QState κ ι α) : QState κ ι α :=
  match x.list q with
  | [] => { x with underrun := Function.update x.underrun q true }
  | item :: rest =>
    { x with
      list := Function.update x.list q rest
      removed := Function.update x.removed q (x.removed q ++ [(t, item)])
      pc := Function.update x.pc t .idle
      lib := semPost (.hasSpace q) 1 x.lib }

/-- What the running thread does next, or the main thread outside `ut_run`. -/
inductive Action (κ ι α : Type) where
  | put (q : κ) (item : α)
  | get (q : κ)
  | resume
  | lib (c : Command (QSem κ ι) Empty)

/-- Calls that do not touch the semaphores of a queue. -/
def outside : Command (QSem κ ι) Empty → Bool
  | .call (.semWait (.other _) _) => true
  | .call (.semWait _ _) => false
  | .call (.semPost (.other _) _) => true
  | .call (.semPost _ _) => false
  | _ => true

/-- The running user thread, when it is in the given part of the code. -/
def runningAt (x : QState κ ι α) : Option (PUThread × Pc κ α) :=
  match x.lib.runningThread with
  | some (.user b) => some (.user b, x.pc (.user b))
  | _ => none

/-- One step of the program. -/
def queueNext (x : QState κ ι α) : Action κ ι α → Option (QState κ ι α)
  | .put q item =>
    match runningAt x with
    | some (t, .idle) => some (queuePut q item t x)
    | _ => none
  | .get q =>
    match runningAt x with
    | some (t, .idle) => some (queueGet q t x)
    | _ => none
  | .resume =>
    match runningAt x with
    | some (t, .putting q item) => some (queuePutRest q item t x)
    | some (t, .getting q) => some (queueGetRest q t x)
    | _ => none
  | .lib c =>
    match outside c, runningAt x with
    | false, _ => none
    | true, some (_, .putting _ _) => none
    | true, some (_, .getting _) => none
    | true, _ => (next x.lib c).map fun lib => { x with lib := lib }

/-- The program before any thread is created. -/
def queueStart (size : κ → ℤ) (sems : ι → Semaphore) : QState κ ι α where
  lib := initial (queueInit size sems)
  list _ := []
  pc _ := .idle
  inserted _ := []
  removed _ := []
  underrun _ := false

/-- Programs of producers and consumers. -/
def queueProgram (size : κ → ℤ) (sems : ι → Semaphore) : System (QState κ ι α) (Action κ ι α) :=
  ofNext (fun x => x = queueStart size sems) queueNext

/-- The semaphore a thread waits on, or was granted a unit of and has not used yet. -/
def Pc.target : Pc κ α → Option (QSem κ ι)
  | .idle => none
  | .putting q _ => some (.hasSpace q)
  | .getting q => some (.hasItems q)

/-- What the waiters of a semaphore are in the queue code for. -/
def QSem.guard : QSem κ ι → Option (QSem κ ι)
  | .hasItems q => some (.hasItems q)
  | .hasSpace q => some (.hasSpace q)
  | .other _ => none

/-- Threads of a list that are in the queue code for a semaphore. -/
def pending (pc : PUThread → Pc κ α) (s : QSem κ ι) (ts : List PUThread) : ℕ :=
  ts.countP fun t => (pc t).target = some s

/-- The threads that run or are ready. -/
def live (σ : State (QSem κ ι) Empty) : List PUThread := σ.runningThread.toList ++ σ.readyQueue

/-- Units of a semaphore that are available, or granted to a thread that is
ready or runs again and has not used them yet. -/
def owed (σ : State (QSem κ ι) Empty) (pc : PUThread → Pc κ α) (s : QSem κ ι) : ℤ :=
  (σ.sems s).units + pending pc s (live σ)

/-- The semaphores and the threads of a program in good order. -/
structure Tracked (sems : QSem κ ι → Semaphore) (σ : State (QSem κ ι) Empty)
    (pc : PUThread → Pc κ α) : Prop where
  /-- Waiters are at the `sem_wait` of the code that uses the semaphore. -/
  waiters : ∀ s, ∀ block ∈ (σ.sems s).waiters, (pc block.thread).target = s.guard
  /-- They ask for one unit. -/
  units : ∀ s, s.guard = some s → ∀ block ∈ (σ.sems s).waiters, block.units = 1
  /-- The main thread is no producer or consumer. -/
  idleMain : pc .main = .idle
  /-- Neither is a thread that does not exist. -/
  idleFree : ∀ b, b ∉ σ.descriptors → pc (.user b) = .idle
  /-- The semaphores of the queues keep their discipline. -/
  sound : ∀ s, s.guard = some s →
    Sound (sems s).units (view s σ) ∧ (view s σ).limit = (sems s).limit ∧ (sems s).limit ≤ intMax

omit [DecidableEq κ] [DecidableEq ι] in
@[simp] theorem target_idle : (Pc.idle : Pc κ α).target = (none : Option (QSem κ ι)) := rfl

/-- A switch passes the ready threads on, except for the one switched in. -/
theorem pending_switch {σ σ' : State (QSem κ ι) Empty} {pc : PUThread → Pc κ α} (s : QSem κ ι)
    (hidle : pc .main = .idle) (hmain : σ.mainThread = some .main)
    (hready : σ'.readyQueue = σ.readyQueue.tail)
    (hrunning : σ'.runningThread = (extractNextThread σ).1) :
    pending pc s (live σ') = pending pc s σ.readyQueue := by
  unfold live
  rw [hready, hrunning, extractNextThread]
  cases hq : σ.readyQueue with
  | nil => simp [hmain, pending, hidle]
  | cons t rest => simp [pending]

theorem pending_schedule {σ : State (QSem κ ι) Empty} {pc : PUThread → Pc κ α} (s : QSem κ ι)
    (frame : Frame (QSem κ ι) Empty) (hidle : pc .main = .idle)
    (hmain : σ.mainThread = some .main) :
    pending pc s (live (schedule frame σ)) = pending pc s σ.readyQueue :=
  pending_switch s hidle hmain (schedule_fields σ frame).1 (schedule_fields σ frame).2.1

/-- An idle thread in front of a list is not pending. -/
theorem pending_cons_idle {pc : PUThread → Pc κ α} {t : PUThread} (s : QSem κ ι)
    (ht : pc t = .idle) (ts : List PUThread) : pending pc s (t :: ts) = pending pc s ts := by
  simp [pending, ht]

/-- Threads of which none is in the queue code for the semaphore are not pending. -/
theorem pending_eq_zero {pc : PUThread → Pc κ α} {s : QSem κ ι} {ts : List PUThread}
    (h : ∀ t ∈ ts, (pc t).target ≠ some s) : pending pc s ts = 0 := by
  simpa [pending, List.countP_eq_zero] using h

/-- Threads that are all in the queue code for the semaphore are all pending. -/
theorem pending_eq_length {pc : PUThread → Pc κ α} {s : QSem κ ι} {ts : List PUThread}
    (h : ∀ t ∈ ts, (pc t).target = some s) : pending pc s ts = ts.length := by
  simpa [pending, List.countP_eq_length] using h

theorem pending_append (pc : PUThread → Pc κ α) (s : QSem κ ι) (ts us : List PUThread) :
    pending pc s (ts ++ us) = pending pc s ts + pending pc s us := List.countP_append

/-- A thread that is not in the list does not count. -/
theorem pending_update {pc : PUThread → Pc κ α} (s : QSem κ ι) {t : PUThread} (p : Pc κ α)
    {ts : List PUThread} (ht : t ∉ ts) :
    pending (Function.update pc t p) s ts = pending pc s ts := by
  refine List.countP_congr fun u hu => ?_
  have hut : u ≠ t := fun h => ht (h ▸ hu)
  rw [Function.update_of_ne hut]

section Steps

variable {sems : QSem κ ι → Semaphore} {σ : State (QSem κ ι) Empty} {pc : PUThread → Pc κ α}
  {loc : PUThread → Option (Place (QSem κ ι) Empty)} {b : ℕ}

omit [DecidableEq κ] [DecidableEq ι] in
/-- The threads at their places when one of them is a running user thread. -/
theorem live_running (hr : σ.runningThread = some (.user b)) :
    live σ = .user b :: σ.readyQueue := by
  simp [live, hr]

/-- Changing the place of the running thread leaves the waiters' places alone. -/
theorem waiters_update (h : Tracked sems σ pc) (hc : Conserved σ loc)
    (hr : σ.runningThread = some (.user b)) (p : Pc κ α) (s : QSem κ ι) :
    ∀ block ∈ (σ.sems s).waiters,
      (Function.update pc (.user b) p block.thread).target = s.guard := by
  intro block hblock
  have hne := (not_linked hc.placed (caller_running hc hr)).2.1 s block hblock
  rw [Function.update_of_ne hne]
  exact h.waiters s block hblock

/-- A running thread exists. -/
theorem running_mem (hc : Conserved σ loc) (hr : σ.runningThread = some (.user b)) :
    b ∈ σ.descriptors := by
  have hloc : loc (.user b) = some .running := hc.placed.pos_iff.mp (by simp [occ, hr])
  exact (hc.allocated b).mp (by simp [hloc])

/-- Changing the place of the running thread keeps threads that do not exist idle. -/
theorem idleFree_update (h : Tracked sems σ pc) (hc : Conserved σ loc)
    (hr : σ.runningThread = some (.user b)) (p : Pc κ α) :
    ∀ b', b' ∉ σ.descriptors → Function.update pc (.user b) p (.user b') = .idle := by
  intro b' hb'
  have hne : PUThread.user b' ≠ .user b := by
    rintro ⟨⟩
    exact hb' (running_mem hc hr)
  rw [Function.update_of_ne hne]
  exact h.idleFree b' hb'

/-- A wait for one unit on the semaphore of a queue keeps the semaphores sound. -/
theorem sound_semWait (h : Tracked sems σ pc) (hr : σ.runningThread = some (.user b))
    (s : QSem κ ι) : ∀ s', s'.guard = some s' →
      Sound (sems s').units (view s' (semWait s 1 σ)) ∧
        (view s' (semWait s 1 σ)).limit = (sems s').limit ∧ (sems s').limit ≤ intMax := by
  intro s' hs'
  obtain ⟨hsound, hlimit, hmax⟩ := h.sound s' hs'
  by_cases he : s = s'
  · subst he
    have hup := hsound.upper
    have hunits : (view s σ).units = (σ.sems s).units := rfl
    rw [view_semWait hr Int.one_pos (by omega)]
    exact ⟨sound_wait hsound Int.one_pos, (wait_limit _ _).trans hlimit, hmax⟩
  · rw [view_semWait_ne he]
    exact ⟨hsound, hlimit, hmax⟩

/-- A thread that starts waiting, or takes a unit at once, owes as much as before. -/
theorem tracked_wait (h : Tracked sems σ pc) (hc : Conserved σ loc)
    (hr : σ.runningThread = some (.user b)) (hidle : pc (.user b) = .idle) {s : QSem κ ι}
    (hs : s.guard = some s) {p : Pc κ α} (hp : p.target = some s) :
    Tracked sems (semWait s 1 σ) (Function.update pc (.user b) p) ∧
      ∀ s', owed (semWait s 1 σ) (Function.update pc (.user b) p) s' = owed σ pc s' := by
  have hsound := sound_semWait h hr s
  have hwaiters := waiters_update h hc hr p
  have hfree := idleFree_update h hc hr p
  have hmain : Function.update pc (.user b) p .main = .idle := by simpa using h.idleMain
  have hnot := (not_linked hc.placed (caller_running hc hr)).1
  have hready : ∀ s' : QSem κ ι, pending (Function.update pc (.user b) p) s' σ.readyQueue =
      pending pc s' σ.readyQueue := fun s' => pending_update s' p hnot
  have hbefore : ∀ s' : QSem κ ι, pending pc s' (live σ) = pending pc s' σ.readyQueue := fun s' => by
    rw [live_running hr, pending_cons_idle s' hidle]
  obtain ⟨hs0, hlimit, hmax⟩ := h.sound s hs
  have hup := hs0.upper
  have hunits : (view s σ).units = (σ.sems s).units := rfl
  simp only [semWait, hr] at hsound ⊢
  split at hsound
  next hfast =>
    have hwrap : wrapInt ((σ.sems s).units - 1) = (σ.sems s).units - 1 :=
      wrapInt_eq (by omega) (by omega)
    rw [if_pos hfast]
    refine ⟨⟨fun s' block hb => ?_, fun s' hs' block hb => ?_, hmain, hfree, hsound⟩,
      fun s' => ?_⟩
    · by_cases he : s' = s
      · subst he
        simp [record, setSem, hfast.1] at hb
      · exact hwaiters s' block (by simpa [record, setSem, he] using hb)
    · by_cases he : s' = s
      · subst he
        simp [record, setSem, hfast.1] at hb
      · exact h.units s' hs' block (by simpa [record, setSem, he] using hb)
    · have hlive : live (record (.taken s (.user b) 1) (setSem s
          ⟨(σ.sems s).waiters, wrapInt ((σ.sems s).units - 1), (σ.sems s).limit⟩
          (record (.called s (.user b) 1) σ))) = .user b :: σ.readyQueue := live_running hr
      rw [owed, owed, hlive, hbefore, pending, List.countP_cons, ← pending, hready]
      by_cases he : s' = s
      · subst he
        simp only [record, setSem, Function.update_self, hwrap, hp, decide_true, if_true]
        omega
      · have hne : p.target ≠ some s' := by
          rw [hp]
          simpa using Ne.symm he
        simp [record, setSem, he, hne]
  next hslow =>
    rw [if_neg hslow]
    have hlinked : ∀ s', ∀ block ∈ ((utDeactivate (.semWait s 1) (record (.blocked s (.user b) 1)
        (setSem s ⟨(σ.sems s).waiters ++ [⟨.user b, 1⟩], (σ.sems s).units, (σ.sems s).limit⟩
          (record (.called s (.user b) 1) σ)))).sems s').waiters,
        block ∈ (σ.sems s').waiters ∨ s' = s ∧ block = ⟨.user b, 1⟩ := by
      intro s' block hb
      by_cases he : s' = s
      · subst he
        simpa [utDeactivate, record, setSem] using hb
      · exact .inl (by simpa [utDeactivate, record, setSem, he] using hb)
    refine ⟨⟨fun s' block hb => ?_, fun s' hs' block hb => ?_, hmain, ?_, hsound⟩, fun s' => ?_⟩
    · rcases hlinked s' block hb with hb | ⟨rfl, rfl⟩
      · exact hwaiters s' block hb
      · rw [Function.update_self, hp, hs]
    · rcases hlinked s' block hb with hb | ⟨rfl, rfl⟩
      · exact h.units s' hs' block hb
      · rfl
    · intro b' hb'
      exact hfree b' (by simpa [utDeactivate, record, setSem] using hb')
    · have hinside := hc.inside (by simp [hr])
      rw [owed, owed, hbefore, ← hready]
      congr 1
      · by_cases he : s' = s
        · subst he
          simp [utDeactivate, record, setSem]
        · simp [utDeactivate, record, setSem, he]
      · exact congrArg Nat.cast (pending_schedule s' (.semWait s 1) hmain hinside)

/-- What one post of one unit on the semaphore of a queue does. -/
theorem semPost_one (h : Tracked sems σ pc) {s : QSem κ ι} (hs : s.guard = some s)
    (hroom : (σ.sems s).units + 1 ≤ (sems s).limit) :
    ∃ served, (σ.sems s).waiters = served ++ ((semPost s 1 σ).sems s).waiters ∧
      (semPost s 1 σ).readyQueue = σ.readyQueue ++ served.map SemWaitBlock.thread ∧
      ((semPost s 1 σ).sems s).units + served.length = (σ.sems s).units + 1 ∧
      view s (semPost s 1 σ) = (view s σ).post 1 := by
  obtain ⟨hsound, hlimit, hmax⟩ := h.sound s hs
  have hlo : 0 ≤ (σ.sems s).units := hsound.lower
  have hbound : (σ.sems s).limit = (sems s).limit := hlimit
  have hpos : ∀ block ∈ (σ.sems s).waiters, 0 < block.units := fun block hb => by
    rw [h.units s hs block hb]
    exact Int.one_pos
  have hfits : (σ.sems s).units + 1 ≤ intMax := by omega
  obtain ⟨served, hwaiters, hpaid, hready⟩ := semPost_releases hpos hlo Int.one_pos.le hfits
  refine ⟨served, hwaiters, hready, ?_, view_semPost hpos hlo Int.one_pos.le hfits⟩
  have hone : ∀ block ∈ served, block.units = 1 := fun block hb =>
    h.units s hs block (hwaiters ▸ List.mem_append_left _ hb)
  rw [List.map_congr_left hone, min_eq_left (by omega)] at hpaid
  simpa using hpaid

/-- A thread that uses its unit of one semaphore and posts one unit on another. -/
theorem tracked_post (h : Tracked sems σ pc) (hc : Conserved σ loc)
    (hr : σ.runningThread = some (.user b)) {s s' : QSem κ ι}
    (hs : (pc (.user b)).target = some s) (hs' : s'.guard = some s') (hne : s ≠ s')
    (hroom : (σ.sems s').units + 1 ≤ (sems s').limit) :
    Tracked sems (semPost s' 1 σ) (Function.update pc (.user b) .idle) ∧
      ∀ u, owed (semPost s' 1 σ) (Function.update pc (.user b) .idle) u =
        owed σ pc u + (if u = s' then 1 else 0) - (if u = s then 1 else 0) := by
  obtain ⟨hrunning, -, hdescriptors, -, -, hsems⟩ := semPost_fields σ s' 1
  obtain ⟨served, hserved, hready, hunits, hview⟩ := semPost_one h hs' hroom
  have hwaiters := waiters_update h hc hr .idle
  have hnot := not_linked hc.placed (caller_running hc hr)
  have hkept : ∀ u, ∀ block ∈ ((semPost s' 1 σ).sems u).waiters, block ∈ (σ.sems u).waiters := by
    intro u block hb
    by_cases hu : u = s'
    · subst hu
      rw [hserved]
      exact List.mem_append_right _ hb
    · rwa [hsems u hu] at hb
  refine ⟨⟨fun u block hb => hwaiters u block (hkept u block hb),
    fun u hu block hb => h.units u hu block (hkept u block hb), by simpa using h.idleMain,
    fun b' hb' => idleFree_update h hc hr .idle b' (hdescriptors ▸ hb'), fun u hu => ?_⟩,
    fun u => ?_⟩
  · obtain ⟨hsound, hlimit, hmax⟩ := h.sound u hu
    by_cases he : s' = u
    · subst he
      rw [hview]
      exact ⟨sound_post hsound Int.one_pos.le, (post_limit _ _).trans hlimit, hmax⟩
    · rw [view_semPost_ne he]
      exact ⟨hsound, hlimit, hmax⟩
  · have hafter : live (semPost s' 1 σ) =
        .user b :: (σ.readyQueue ++ served.map SemWaitBlock.thread) := by
      rw [live, hrunning, hready, hr]
      rfl
    have hfresh : .user b ∉ σ.readyQueue ++ served.map SemWaitBlock.thread := by
      simp only [List.mem_append, List.mem_map, not_or, not_exists, not_and]
      refine ⟨hnot.1, fun block hb => hnot.2.1 s' block ?_⟩
      rw [hserved]
      exact List.mem_append_left _ hb
    have hcount : pending pc u (served.map SemWaitBlock.thread) =
        if u = s' then served.length else 0 := by
      have htarget : ∀ t ∈ served.map SemWaitBlock.thread, (pc t).target = some s' := by
        intro t ht
        obtain ⟨block, hb, rfl⟩ := List.mem_map.mp ht
        rw [h.waiters s' block (hserved ▸ List.mem_append_left _ hb), hs']
      split
      next hu =>
        subst hu
        rw [pending_eq_length htarget, List.length_map]
      next hu =>
        refine pending_eq_zero fun t ht => ?_
        rw [htarget t ht]
        simpa using Ne.symm hu
    have hcaller : pending pc u [.user b] = if u = s then 1 else 0 := by
      simp [pending, hs, eq_comm]
    have hbefore : pending pc u (live σ) = pending pc u [.user b] + pending pc u σ.readyQueue := by
      rw [live_running hr, ← pending_append]
      rfl
    rw [owed, owed, hafter, pending_cons_idle u (Function.update_self _ _ _),
      pending_update u _ hfresh, pending_append, hbefore, hcount, hcaller]
    by_cases hu : u = s'
    · subst hu
      have hus : ¬ u = s := Ne.symm hne
      simp only [hus, if_true, if_false]
      omega
    · rw [hsems u hu]
      simp only [hu, if_false]
      split <;> omega

/-- Steps outside the queue code leave the views of its semaphores alone. -/
theorem view_outside {c : Command (QSem κ ι) Empty} (hout : outside c = true)
    {σ' : State (QSem κ ι) Empty} (hstep : next σ c = some σ') {s : QSem κ ι}
    (hs : s.guard = some s) : view s σ' = view s σ := by
  refine view_other (fun n hc => ?_) (fun n hc => ?_) hstep
  all_goals
    subst hc
    cases s with
    | hasItems | hasSpace => simp [outside] at hout
    | other => simp [QSem.guard] at hs

/-- What a step outside the queue code does: it links only idle threads and
only on other semaphores, frees only idle threads, and changes no count. -/
structure CalmStep (pc : PUThread → Pc κ α) (σ σ' : State (QSem κ ι) Empty) : Prop where
  waiters : ∀ s, ∀ block ∈ (σ'.sems s).waiters,
    block ∈ (σ.sems s).waiters ∨ s.guard = none ∧ pc block.thread = .idle
  descriptors : ∀ b, b ∉ σ'.descriptors → pc (.user b) = .idle
  pending : ∀ s : QSem κ ι, s.guard = some s → pending pc s (live σ') = pending pc s (live σ)

/-- A new thread is idle. -/
theorem calm_utCreate (h : Tracked sems σ pc) (hb : b ∉ σ.descriptors) :
    CalmStep pc σ (utCreate b σ) := by
  refine ⟨fun _ _ hblock => .inl hblock, fun b' hb' => h.idleFree b' fun hmem => ?_, fun s _ => ?_⟩
  · exact hb' (List.mem_cons_of_mem b hmem)
  · have hlive : live (utCreate b σ) = live σ ++ [.user b] := (List.append_assoc _ _ _).symm
    rw [hlive, pending_append, pending_cons_idle s (h.idleFree b hb)]
    rfl

/-- A switch away from an idle thread. -/
theorem calm_schedule (h : Tracked sems σ pc) (hmain : σ.mainThread = some .main)
    (hr : σ.runningThread = some (.user b)) (hidle : pc (.user b) = .idle)
    {σ₁ : State (QSem κ ι) Empty} (frame : Frame (QSem κ ι) Empty)
    (hwaiters : ∀ s, ∀ block ∈ (σ₁.sems s).waiters,
      block ∈ (σ.sems s).waiters ∨ s.guard = none ∧ block.thread = .user b)
    (hdescriptors : σ₁.descriptors = σ.descriptors) (hmain₁ : σ₁.mainThread = σ.mainThread)
    (hready : ∀ s : QSem κ ι, pending pc s σ₁.readyQueue = pending pc s σ.readyQueue) :
    CalmStep pc σ (schedule frame σ₁) := by
  refine ⟨fun s block hblock => ?_, fun b' hb' => h.idleFree b' ?_, fun s _ => ?_⟩
  · rw [(schedule_fields σ₁ frame).2.2.2.2.2.1] at hblock
    rcases hwaiters s block hblock with hold | ⟨hs, ht⟩
    · exact .inl hold
    · exact .inr ⟨hs, ht ▸ hidle⟩
  · rwa [(schedule_fields σ₁ frame).2.2.2.2.1, hdescriptors] at hb'
  · rw [pending_schedule s frame h.idleMain (hmain₁.trans hmain), hready, live_running hr,
      pending_cons_idle s hidle]

/-- Calls of an idle thread outside the queue code. -/
theorem calm_call (h : Tracked sems σ pc) (hc : Conserved σ loc)
    (hr : σ.runningThread = some (.user b)) (hidle : pc (.user b) = .idle)
    {c : Call (QSem κ ι) Empty} (hout : outside (.call c) = true) (hmalloc : mallocOk σ c = true) :
    CalmStep pc σ (perform c σ) := by
  have hmain := hc.inside (by simp [hr])
  have hlive : ∀ s : QSem κ ι, pending pc s (live σ) = pending pc s σ.readyQueue := fun s => by
    rw [live_running hr, pending_cons_idle s hidle]
  have hsame : CalmStep pc σ σ := ⟨fun _ _ hb => .inl hb, h.idleFree, fun _ _ => rfl⟩
  cases c with
  | utCreate b' => exact calm_utCreate h (by simpa [mallocOk] using hmalloc)
  | utYield =>
    rw [perform, utYield_eq hr]
    split
    · exact hsame
    · refine calm_schedule h hmain hr hidle _ (fun _ _ hb => .inl hb) rfl rfl fun s => ?_
      have hready : (insertReady .yielded (.user b) σ).readyQueue = σ.readyQueue ++ [.user b] := rfl
      rw [hready, pending_append, pending_cons_idle s hidle]
      rfl
  | utExit =>
    obtain ⟨hready, hrunning, -, -, hdescriptors, -, hsems, -, -⟩ := utExit_fields σ hr
    refine ⟨fun s block hb => .inl (hsems ▸ hb), fun b' hb' => ?_, fun s _ => ?_⟩
    · by_cases hbb : b' = b
      · rw [hbb, hidle]
      · refine h.idleFree b' fun hmem => hb' ?_
        rw [perform, hdescriptors]
        exact (List.mem_erase_of_ne hbb).mpr hmem
    · rw [hlive, perform, pending_switch s h.idleMain hmain hready hrunning]
  | semWait s n =>
    cases s with
    | hasItems | hasSpace => simp [outside] at hout
    | other u =>
      simp only [perform, semWait, hr]
      split
      · refine ⟨fun s block hb => .inl ?_, h.idleFree, fun _ _ => rfl⟩
        by_cases hs : s = .other u
        · subst hs
          simpa [record, setSem] using hb
        · simpa [record, setSem, hs] using hb
      · refine calm_schedule h hmain hr hidle _ (fun s block hb => ?_) rfl rfl fun s => rfl
        by_cases hs : s = .other u
        · subst hs
          have hmem : block ∈ (σ.sems (.other u)).waiters ∨ block = ⟨.user b, n⟩ := by
            simpa [record, setSem] using hb
          exact hmem.imp_right fun heq => ⟨rfl, by rw [heq]⟩
        · exact .inl (by simpa [record, setSem, hs] using hb)
  | semPost s n =>
    cases s with
    | hasItems | hasSpace => simp [outside] at hout
    | other u =>
      obtain ⟨hrunning, -, hdescriptors, -, -, hsems⟩ := semPost_fields σ (.other u) n
      obtain ⟨served, hserved, hready⟩ := semPost_served σ (.other u) n
      refine ⟨fun s block hb => .inl ?_, fun b' hb' => h.idleFree b' (hdescriptors ▸ hb'),
        fun s hs => ?_⟩
      · by_cases hs : s = .other u
        · subst hs
          rw [hserved]
          exact List.mem_append_right _ hb
        · rwa [perform, hsems s hs] at hb
      · have hafter : live (semPost (.other u) n σ) =
            live σ ++ served.map SemWaitBlock.thread := by
          rw [live, hrunning, hready]
          exact (List.append_assoc _ _ _).symm
        have hnone : pending pc s (served.map SemWaitBlock.thread) = 0 := by
          refine pending_eq_zero fun t ht => ?_
          obtain ⟨block, hb, rfl⟩ := List.mem_map.mp ht
          rw [h.waiters (.other u) block (hserved ▸ List.mem_append_left _ hb)]
          simp [QSem.guard]
        rw [perform, hafter, pending_append, hnone, Nat.add_zero]
  | eventWait e => exact e.elim
  | eventSet e => exact e.elim

/-- Steps outside the queue code. -/
theorem calm_next (h : Tracked sems σ pc) (hc : Conserved σ loc) {c : Command (QSem κ ι) Empty}
    (hout : outside c = true)
    (hidle : ∀ b, σ.runningThread = some (.user b) → pc (.user b) = .idle)
    {σ' : State (QSem κ ι) Empty} (hstep : next σ c = some σ') : CalmStep pc σ σ' := by
  cases c with
  | create b' =>
    obtain ⟨-, hb, rfl⟩ := next_create hstep
    exact calm_utCreate h hb
  | enterRun =>
    obtain ⟨hr, rfl | rfl⟩ := next_enterRun hstep
    · exact ⟨fun _ _ hb => .inl hb, h.idleFree, fun _ _ => rfl⟩
    · refine ⟨fun s block hb => .inl ?_, fun b' hb' => h.idleFree b' ?_, fun s _ => ?_⟩
      · simpa using hb
      · simpa using hb'
      · rw [pending_schedule s .utRun h.idleMain rfl, live, hr]
        rfl
  | leaveRun =>
    obtain ⟨hr, -, -, rfl⟩ := next_leaveRun hstep
    refine ⟨fun _ _ hb => .inl hb, h.idleFree, fun s _ => ?_⟩
    have hlive : live σ = .main :: σ.readyQueue := by simp [live, hr]
    rw [hlive, pending_cons_idle s h.idleMain]
    rfl
  | call c =>
    obtain ⟨b', hr, hmalloc, rfl⟩ := next_call hstep
    exact calm_call h hc hr (hidle b' hr) hout hmalloc

/-- Steps outside the queue code change neither the semaphores of the queues
nor who is pending. -/
theorem tracked_lib (h : Tracked sems σ pc) (hc : Conserved σ loc) {c : Command (QSem κ ι) Empty}
    (hout : outside c = true)
    (hidle : ∀ b, σ.runningThread = some (.user b) → pc (.user b) = .idle)
    {σ' : State (QSem κ ι) Empty} (hstep : next σ c = some σ') :
    Tracked sems σ' pc ∧ ∀ s, s.guard = some s → owed σ' pc s = owed σ pc s := by
  have hview : ∀ s : QSem κ ι, s.guard = some s → view s σ' = view s σ := fun s hs =>
    view_outside hout hstep hs
  obtain ⟨hwaiters, hdescriptors, hpending⟩ := calm_next h hc hout hidle hstep
  refine ⟨⟨fun s block hb => ?_, fun s hs block hb => ?_, h.idleMain, hdescriptors,
    fun s hs => ?_⟩, fun s hs => ?_⟩
  · rcases hwaiters s block hb with hold | ⟨hs, hi⟩
    · exact h.waiters s block hold
    · rw [hs, hi, target_idle]
  · rcases hwaiters s block hb with hold | ⟨hs', -⟩
    · exact h.units s hs block hold
    · simp [hs] at hs'
  · rw [hview s hs]
    exact h.sound s hs
  · have hunits : (σ'.sems s).units = (σ.sems s).units := congrArg Sem.units (hview s hs)
    rw [owed, owed, hunits, hpending s hs]

end Steps

/-- The parts of the queue code that a step runs. -/
theorem queueNext_cases {x y : QState κ ι α} {a : Action κ ι α} (hstep : queueNext x a = some y) :
    (∃ b q item, x.lib.runningThread = some (.user b) ∧ x.pc (.user b) = .idle ∧
      y = queuePut q item (.user b) x) ∨
    (∃ b q, x.lib.runningThread = some (.user b) ∧ x.pc (.user b) = .idle ∧
      y = queueGet q (.user b) x) ∨
    (∃ b q item, x.lib.runningThread = some (.user b) ∧ x.pc (.user b) = .putting q item ∧
      y = queuePutRest q item (.user b) x) ∨
    (∃ b q, x.lib.runningThread = some (.user b) ∧ x.pc (.user b) = .getting q ∧
      y = queueGetRest q (.user b) x) ∨
    ∃ c lib, outside c = true ∧
      (∀ b, x.lib.runningThread = some (.user b) → x.pc (.user b) = .idle) ∧
      next x.lib c = some lib ∧ y = { x with lib := lib } := by
  have hat : ∀ {t p}, runningAt x = some (t, p) →
      ∃ b, x.lib.runningThread = some (.user b) ∧ t = .user b ∧ x.pc (.user b) = p := by
    intro t p h
    unfold runningAt at h
    split at h
    next b hr =>
      cases h
      exact ⟨b, hr, rfl, rfl⟩
    next => cases h
  cases a with
  | put q item =>
    simp only [queueNext] at hstep
    split at hstep
    next t hrun =>
      cases hstep
      obtain ⟨b, hr, rfl, hp⟩ := hat hrun
      exact .inl ⟨b, q, item, hr, hp, rfl⟩
    next => cases hstep
  | get q =>
    simp only [queueNext] at hstep
    split at hstep
    next t hrun =>
      cases hstep
      obtain ⟨b, hr, rfl, hp⟩ := hat hrun
      exact .inr (.inl ⟨b, q, hr, hp, rfl⟩)
    next => cases hstep
  | resume =>
    simp only [queueNext] at hstep
    split at hstep
    next t q item hrun =>
      cases hstep
      obtain ⟨b, hr, rfl, hp⟩ := hat hrun
      exact .inr (.inr (.inl ⟨b, q, item, hr, hp, rfl⟩))
    next t q hrun =>
      cases hstep
      obtain ⟨b, hr, rfl, hp⟩ := hat hrun
      exact .inr (.inr (.inr (.inl ⟨b, q, hr, hp, rfl⟩)))
    next => cases hstep
  | lib c =>
    simp only [queueNext] at hstep
    split at hstep
    next => cases hstep
    next => cases hstep
    next => cases hstep
    next hout hput hget =>
      obtain ⟨lib, hlib, rfl⟩ := Option.map_eq_some_iff.mp hstep
      refine .inr (.inr (.inr (.inr ⟨c, lib, hout, fun b hr => ?_, hlib, rfl⟩)))
      have hrun : runningAt x = some (.user b, x.pc (.user b)) := by simp [runningAt, hr]
      cases hp : x.pc (.user b) with
      | idle => rfl
      | putting q item => exact absurd (hp ▸ hrun) (hput _ q item)
      | getting q => exact absurd (hp ▸ hrun) (hget _ q)

/-- A call of the running thread is a step of the library. -/
theorem next_perform {σ : State (QSem κ ι) Empty} {b : ℕ} (hr : σ.runningThread = some (.user b))
    {c : Call (QSem κ ι) Empty} (hmalloc : mallocOk σ c = true) :
    next σ (.call c) = some (perform c σ) := by
  simp [next, hr, hmalloc]

/-- Runs of the program are runs of the library. -/
theorem lib_reachable {size : κ → ℤ} {sems : ι → Semaphore} {x : QState κ ι α}
    (h : (queueProgram size sems).Reachable x) :
    ((library (queueInit size sems)).restrict FreshSet).Reachable x.lib := by
  have hfresh : ∀ (σ : State (QSem κ ι) Empty) c, FreshSet σ c := by
    intro σ c
    cases c with
    | call c =>
      cases c with
      | eventSet e => exact e.elim
      | _ => trivial
    | _ => trivial
  induction h with
  | start hinit =>
    cases hinit
    exact .start rfl
  | @next x y a _ hstep ih =>
    have hcall : ∀ {b c}, x.lib.runningThread = some (.user b) → mallocOk x.lib c = true →
        ((library (queueInit size sems)).restrict FreshSet).Reachable (perform c x.lib) :=
      fun hr hm => ih.next ⟨hfresh _ _, next_perform hr hm⟩
    rcases queueNext_cases hstep with ⟨b, q, item, hr, -, rfl⟩ | ⟨b, q, hr, -, rfl⟩ |
      ⟨b, q, item, hr, -, rfl⟩ | ⟨b, q, hr, -, rfl⟩ | ⟨c, lib, -, -, hlib, rfl⟩
    · exact hcall (c := .semWait (.hasSpace q) 1) hr rfl
    · exact hcall (c := .semWait (.hasItems q) 1) hr rfl
    · exact hcall (c := .semPost (.hasItems q) 1) hr rfl
    · unfold queueGetRest
      split
      · exact ih
      · exact hcall (c := .semPost (.hasSpace q) 1) hr rfl
    · exact ih.next ⟨hfresh _ _, hlib⟩

/-- The queues in good order. -/
structure QueueInv (size : κ → ℤ) (sems : ι → Semaphore) (x : QState κ ι α) : Prop where
  /-- The semaphores and the threads are. -/
  tracked : Tracked (queueInit size sems) x.lib x.pc
  /-- There is an item for every unit owed to getters. -/
  items : ∀ q, ((x.list q).length : ℤ) = owed x.lib x.pc (.hasItems q)
  /-- The rest of the capacity is owed to putters. -/
  space : ∀ q, (x.list q).length + owed x.lib x.pc (.hasSpace q) = size q
  /-- The list holds what was inserted and not yet removed, in order. -/
  order : ∀ q, x.inserted q = (x.removed q).map Prod.snd ++ x.list q
  /-- No node was taken from an empty list. -/
  intact : ∀ q, x.underrun q = false

/-- A fresh program. -/
theorem queueInv_start {size : κ → ℤ} (hsize : ∀ q, 1 ≤ size q ∧ size q ≤ intMax)
    {sems : ι → Semaphore} (hsems : SemsReady sems) :
    QueueInv size sems (queueStart size sems : QState κ ι α) := by
  have hempty : ∀ s, ((initial (queueInit size sems) : State (QSem κ ι) Empty).sems s).waiters =
      [] := by
    intro s
    cases s with
    | hasItems | hasSpace => rfl
    | other u =>
      obtain ⟨units, limit, hu, -⟩ := hsems u
      simp [initial, utInit, queueInit, hu, semInit]
  refine ⟨⟨fun s block hb => ?_, fun s _ block hb => ?_, rfl, fun _ _ => rfl, fun s hs => ?_⟩,
    fun q => rfl, fun q => ?_, fun q => rfl, fun q => rfl⟩
  · simp [queueStart, hempty] at hb
  · simp [queueStart, hempty] at hb
  · cases s with
    | hasItems q =>
      obtain ⟨hone, hmax⟩ := hsize q
      have hpos : 0 ≤ size q := by omega
      exact ⟨sound_init le_rfl hpos, rfl, hmax⟩
    | hasSpace q =>
      obtain ⟨hone, hmax⟩ := hsize q
      have hpos : 0 ≤ size q := by omega
      exact ⟨sound_init hpos le_rfl, rfl, hmax⟩
    | other u => simp [QSem.guard] at hs
  · simp [queueStart, owed, initial, utInit, queueInit, semInit, live, pending]

/-- Units of the semaphore of a queue are never negative, and neither is what is owed. -/
theorem units_nonneg {sems : QSem κ ι → Semaphore} {σ : State (QSem κ ι) Empty}
    {pc : PUThread → Pc κ α} (h : Tracked sems σ pc) {s : QSem κ ι} (hs : s.guard = some s) :
    0 ≤ (σ.sems s).units := (h.sound s hs).1.lower

/-- A running thread at the queue code of a semaphore is owed a unit. -/
theorem granted_running {σ : State (QSem κ ι) Empty} {pc : PUThread → Pc κ α} {b : ℕ}
    (hr : σ.runningThread = some (.user b)) {s : QSem κ ι} (hs : (pc (.user b)).target = some s) :
    1 ≤ pending pc s (live σ) := by
  rw [live_running hr, pending, List.countP_cons]
  simp [hs]

/-- `queue_put` after its `sem_wait` keeps the queues in order. -/
theorem queueInv_putRest {size : κ → ℤ} {sems : ι → Semaphore} {x : QState κ ι α}
    (h : QueueInv size sems x) {loc : PUThread → Option (Place (QSem κ ι) Empty)}
    (hc : Conserved x.lib loc) {b : ℕ} (hr : x.lib.runningThread = some (.user b)) {q : κ}
    {item : α} (hp : x.pc (.user b) = .putting q item) :
    QueueInv size sems (queuePutRest q item (.user b) x) := by
  have htarget : (x.pc (.user b)).target = some (.hasSpace q : QSem κ ι) := by rw [hp]; rfl
  have hgranted := granted_running hr htarget
  have hitems := h.items q
  have hspace := h.space q
  have hlo := units_nonneg h.tracked (s := .hasSpace q) rfl
  have hroom : (x.lib.sems (.hasItems q)).units + 1 ≤ (queueInit size sems (.hasItems q)).limit := by
    change _ ≤ size q
    unfold owed at hitems hspace
    omega
  have hguard : QSem.guard (.hasItems q : QSem κ ι) = some (.hasItems q) := rfl
  obtain ⟨htracked, howed⟩ := tracked_post h.tracked hc hr htarget hguard (by simp) hroom
  refine ⟨htracked, fun u => ?_, fun u => ?_, fun u => ?_, h.intact⟩
  · have hu := howed (.hasItems u)
    by_cases he : u = q
    · subst he
      simp [queuePutRest] at hu ⊢
      omega
    · simp [queuePutRest, he] at hu ⊢
      rw [hu, h.items u]
  · have hu := howed (.hasSpace u)
    have hold := h.space u
    by_cases he : u = q
    · subst he
      simp [queuePutRest] at hu ⊢
      omega
    · simp [queuePutRest, he] at hu ⊢
      omega
  · by_cases he : u = q
    · subst he
      simp [queuePutRest, h.order u]
    · simp [queuePutRest, he, h.order u]

/-- `queue_get` after its `sem_wait` finds an item and keeps the queues in order. -/
theorem queueInv_getRest {size : κ → ℤ} {sems : ι → Semaphore} {x : QState κ ι α}
    (h : QueueInv size sems x) {loc : PUThread → Option (Place (QSem κ ι) Empty)}
    (hc : Conserved x.lib loc) {b : ℕ} (hr : x.lib.runningThread = some (.user b)) {q : κ}
    (hp : x.pc (.user b) = .getting q) : QueueInv size sems (queueGetRest q (.user b) x) := by
  have htarget : (x.pc (.user b)).target = some (.hasItems q : QSem κ ι) := by rw [hp]; rfl
  have hgranted := granted_running hr htarget
  have hitems := h.items q
  have hspace := h.space q
  have hlo := units_nonneg h.tracked (s := .hasItems q) rfl
  unfold owed at hitems hspace
  unfold queueGetRest
  cases hlist : x.list q with
  | nil =>
    simp only [hlist, List.length_nil] at hitems
    omega
  | cons item rest =>
    simp only [hlist, List.length_cons] at hitems hspace
    have hroom : (x.lib.sems (.hasSpace q)).units + 1 ≤
        (queueInit size sems (.hasSpace q)).limit := by
      change _ ≤ size q
      omega
    have hguard : QSem.guard (.hasSpace q : QSem κ ι) = some (.hasSpace q) := rfl
    obtain ⟨htracked, howed⟩ := tracked_post h.tracked hc hr htarget hguard (by simp) hroom
    refine ⟨htracked, fun u => ?_, fun u => ?_, fun u => ?_, h.intact⟩
    · have hu := howed (.hasItems u)
      have hold := h.items u
      by_cases he : u = q
      · subst he
        simp [hlist] at hu hold ⊢
        omega
      · simp [he] at hu ⊢
        omega
    · have hu := howed (.hasSpace u)
      have hold := h.space u
      by_cases he : u = q
      · subst he
        simp [hlist] at hu hold ⊢
        omega
      · simp [he] at hu ⊢
        omega
    · by_cases he : u = q
      · subst he
        simp [h.order u, hlist]
      · simp [he, h.order u]

/-- Along every run the queues are in good order. -/
theorem queueInv_reachable {size : κ → ℤ} (hsize : ∀ q, 1 ≤ size q ∧ size q ≤ intMax)
    {sems : ι → Semaphore} (hsems : SemsReady sems) {x : QState κ ι α}
    (h : (queueProgram size sems).Reachable x) : QueueInv size sems x := by
  have hready : SemsReady (queueInit size sems) := by
    intro s
    cases s with
    | hasItems q =>
      obtain ⟨hone, hmax⟩ := hsize q
      exact ⟨0, size q, rfl, le_rfl, by omega, hmax⟩
    | hasSpace q =>
      obtain ⟨hone, hmax⟩ := hsize q
      exact ⟨size q, size q, rfl, by omega, le_rfl, hmax⟩
    | other u => exact hsems u
  refine System.Reachable.invariant (I := QueueInv size sems) ?_ ?_ h
  · rintro x rfl
    exact queueInv_start hsize hsems
  · intro x a y hx hI hstep
    obtain ⟨loc, hc⟩ := conserved_reachable hready.waiters_eq (lib_reachable hx)
    rcases queueNext_cases hstep with ⟨b, q, item, hr, hp, rfl⟩ | ⟨b, q, hr, hp, rfl⟩ |
      ⟨b, q, item, hr, hp, rfl⟩ | ⟨b, q, hr, hp, rfl⟩ | ⟨c, lib, hout, hidle, hlib, rfl⟩
    · obtain ⟨htracked, howed⟩ := tracked_wait hI.tracked hc hr hp (s := .hasSpace q) rfl
        (p := .putting q item) rfl
      exact ⟨htracked, fun u => (hI.items u).trans (howed _).symm,
        fun u => (congrArg _ (howed _)).trans (hI.space u), hI.order, hI.intact⟩
    · obtain ⟨htracked, howed⟩ := tracked_wait hI.tracked hc hr hp (s := .hasItems q) rfl
        (p := .getting q) rfl
      exact ⟨htracked, fun u => (hI.items u).trans (howed _).symm,
        fun u => (congrArg _ (howed _)).trans (hI.space u), hI.order, hI.intact⟩
    · exact queueInv_putRest hI hc hr hp
    · exact queueInv_getRest hI hc hr hp
    · obtain ⟨htracked, howed⟩ := tracked_lib hI.tracked hc hout hidle hlib
      exact ⟨htracked, fun u => (hI.items u).trans (howed _ rfl).symm,
        fun u => (congrArg _ (howed _ rfl)).trans (hI.space u), hI.order, hI.intact⟩

/-- Threads granted a unit of a semaphore and not yet resumed. -/
def grantedReady (x : QState κ ι α) (s : QSem κ ι) : ℕ := pending x.pc s x.lib.readyQueue

/-- The running thread, when it was granted a unit and has not used it yet. -/
def grantedRunning (x : QState κ ι α) (s : QSem κ ι) : ℕ :=
  pending x.pc s x.lib.runningThread.toList

/-- A thread whose `sem_wait` in `queue_get` returns finds an item: it unlinks the
head of the list and returns its item. -/
theorem resume_get {size : κ → ℤ} (hsize : ∀ q, 1 ≤ size q ∧ size q ≤ intMax)
    {sems : ι → Semaphore} (hsems : SemsReady sems) {x : QState κ ι α}
    (h : (queueProgram size sems).Reachable x) {q : κ} {b : ℕ}
    (hr : x.lib.runningThread = some (.user b)) (hp : x.pc (.user b) = .getting q) :
    ∃ y item, queueNext x .resume = some y ∧ x.list q = item :: y.list q ∧
      y.removed q = x.removed q ++ [(.user b, item)] ∧ y.inserted q = x.inserted q := by
  have hrest : queueNext x .resume = some (queueGetRest q (.user b) x) := by
    simp [queueNext, runningAt, hr, hp]
  have hinv := queueInv_reachable hsize hsems (h.next hrest)
  have hintact := hinv.intact q
  cases hlist : x.list q with
  | nil => simp [queueGetRest, hlist] at hintact
  | cons item rest => exact ⟨_, item, hrest, by simp [queueGetRest, hlist]⟩

/-- A thread whose `sem_wait` in `queue_put` returns links its item at the tail. -/
theorem resume_put {x : QState κ ι α} {q : κ} {item : α} {b : ℕ}
    (hr : x.lib.runningThread = some (.user b)) (hp : x.pc (.user b) = .putting q item) :
    ∃ y, queueNext x .resume = some y ∧ y.list q = x.list q ++ [item] ∧
      y.inserted q = x.inserted q ++ [item] ∧ y.removed q = x.removed q := by
  refine ⟨queuePutRest q item (.user b) x, ?_, by simp [queuePutRest]⟩
  simp [queueNext, runningAt, hr, hp]

/-- Bounded blocking queues. In every reachable state a list never holds more
than its size, no node was removed from an empty list, and the items removed,
one by each `queue_get`, are a prefix of the items inserted. The length is the
units of `hasItems` plus the getters that were granted one, whether still in
the ready queue or already running again, and together with the units of
`hasSpace` and the putters granted one it makes up the size. A getter that goes
on removes the head and returns its item, and a putter that goes on inserts its
item at the tail. -/
theorem bounded_queue {size : κ → ℤ} (hsize : ∀ q, 1 ≤ size q ∧ size q ≤ intMax)
    {sems : ι → Semaphore} (hsems : SemsReady sems) {x : QState κ ι α}
    (h : (queueProgram size sems).Reachable x) (q : κ) :
    ((x.list q).length : ℤ) ≤ size q ∧ x.underrun q = false ∧
    x.inserted q = (x.removed q).map Prod.snd ++ x.list q ∧
    ((x.list q).length : ℤ) = (x.lib.sems (.hasItems q)).units +
      (grantedReady x (.hasItems q) + grantedRunning x (.hasItems q)) ∧
    (x.list q).length + (x.lib.sems (.hasSpace q)).units +
      (grantedReady x (.hasSpace q) + grantedRunning x (.hasSpace q)) = size q ∧
    ∀ b, x.lib.runningThread = some (.user b) →
      (x.pc (.user b) = .getting q → ∃ y item, queueNext x .resume = some y ∧
        x.list q = item :: y.list q ∧ y.removed q = x.removed q ++ [(.user b, item)] ∧
        y.inserted q = x.inserted q) ∧
      ∀ item, x.pc (.user b) = .putting q item → ∃ y, queueNext x .resume = some y ∧
        y.list q = x.list q ++ [item] ∧ y.inserted q = x.inserted q ++ [item] ∧
        y.removed q = x.removed q := by
  have hinv := queueInv_reachable hsize hsems h
  have hitems := hinv.items q
  have hspace := hinv.space q
  have hlo := units_nonneg hinv.tracked (s := .hasSpace q) rfl
  rw [owed, live, pending_append] at hitems hspace
  simp only [grantedReady, grantedRunning]
  refine ⟨by omega, hinv.intact q, hinv.order q, by omega, by omega, fun b hr => ⟨fun hp => ?_,
    fun item hp => ?_⟩⟩
  · exact resume_get hsize hsems h hr hp
  · exact resume_put hr hp

/-- A getter that was granted the only item and is still in the ready queue: the list
has one node and `hasItems` no unit. Once it runs again it returns that item. -/
theorem bounded_queue_handed_over :
    ∃ x x' y : QState Unit Empty ℕ, x.list () = [7] ∧ (x.lib.sems (.hasItems ())).units = 0 ∧
      grantedReady x (.hasItems ()) = 1 ∧ x.underrun () = false ∧
      queueNext x (.lib (.call .utYield)) = some x' ∧ queueNext x' .resume = some y ∧
      y.list () = [] ∧ y.removed () = [(.user 0, 7)] := by
  have hsize : ∀ _ : Unit, (1 : ℤ) ≤ 1 ∧ (1 : ℤ) ≤ intMax := fun _ => by decide
  have hsems : SemsReady (Empty.elim : Empty → Semaphore) := fun s => s.elim
  have hstart : (queueProgram (fun _ : Unit => 1) (Empty.elim : Empty → Semaphore)).Reachable
      (queueStart (fun _ => 1) Empty.elim : QState Unit Empty ℕ) := .start rfl
  have hcreated := ((hstart.next (a := Action.lib (.create 0)) rfl).next
    (a := Action.lib (.create 1)) rfl).next (a := Action.lib .enterRun) rfl
  have hgranted := ((hcreated.next (a := Action.get ()) rfl).next
    (a := Action.put () 7) rfl).next (a := Action.resume) rfl
  have hresumed := hgranted.next (a := Action.lib (.call .utYield)) rfl
  obtain ⟨y, item, hrest, hlist, hremoved, -⟩ :=
    ((bounded_queue hsize hsems hresumed ()).2.2.2.2.2 0 rfl).1 rfl
  obtain ⟨hitem, hleft⟩ := List.cons.inj (hlist.symm.trans (rfl : _ = [7]))
  exact ⟨_, _, y, rfl, rfl, rfl, (bounded_queue hsize hsems hgranted ()).2.1, rfl, hrest, hleft,
    hremoved.trans (by rw [hitem]; rfl)⟩

end SistemasOperativos.UThreadQueue
