import Mathlib.Tactic
import SistemasOperativos.FifoSemaphore
import SistemasOperativos.UThread

/-!
# The semaphores of the user-thread library

Every semaphore of a running program, seen alone, is a first-in first-out
counting semaphore: `sem_wait` and `sem_post` act on the view as its wait and
post, and every other call leaves the view alone. Queue discipline and unit
conservation then hold along every run.
-/

namespace SistemasOperativos.UThreadSemaphore

open TransitionRuns UThread FifoSemaphore

variable {ι ε : Type} [DecidableEq ι]

/-- A wait block, as the request it stands for. -/
def request (block : SemWaitBlock) : Request PUThread := ⟨block.thread, block.units⟩

/-- What a log entry says about one semaphore. -/
def mark (s : ι) : Entry ι ε → Option (Mark PUThread)
  | .called s' t n => if s' = s then some (.called ⟨t, n⟩) else none
  | .taken s' t n => if s' = s then some (.taken ⟨t, n⟩) else none
  | .blocked s' t n => if s' = s then some (.blocked ⟨t, n⟩) else none
  | .released s' t n => if s' = s then some (.released ⟨t, n⟩) else none
  | .appended t (.posted s') _ => if s' = s then some (.woken t) else none
  | .posted s' _ n c => if s' = s then some (.posted n c) else none
  | _ => none

/-- One semaphore, with the part of the log that is about it. -/
def view (s : ι) (σ : State ι ε) : Sem PUThread :=
  ⟨(σ.sems s).waiters.map request, (σ.sems s).units, (σ.sems s).limit, σ.log.filterMap (mark s)⟩

/-- Two states agree on a semaphore when its fields and its entries agree. -/
theorem view_congr {s : ι} {σ σ' : State ι ε} (hsem : σ'.sems s = σ.sems s)
    (hlog : σ'.log.filterMap (mark s) = σ.log.filterMap (mark s)) :
    view s σ' = view s σ := by
  simp only [view, hsem, hlog]

/-- The dispatch of the next thread is no business of a semaphore. -/
theorem view_dispatch {s : ι} {σ σ' : State ι ε} (hsems : σ'.sems = σ.sems)
    (hlog : σ'.log = (extractNextThread σ).2.log) : view s σ' = view s σ := by
  refine view_congr (congrFun hsems s) ?_
  rw [hlog, extractNextThread_log, List.filterMap_append]
  cases σ.readyQueue.head? <;> exact List.append_nil _

/-- A switch to another thread is no business of a semaphore. -/
@[simp] theorem view_schedule (s : ι) (frame : Frame ι ε) (σ : State ι ε) :
    view s (schedule frame σ) = view s σ :=
  view_dispatch (by simp) (by simp)

/-- Appends that no post of the semaphore makes are no business of it. -/
theorem view_insertReady {s : ι} {cause : Cause ι ε} (hc : cause ≠ .posted s) (t : PUThread)
    (σ : State ι ε) : view s (insertReady cause t σ) = view s σ := by
  refine view_congr rfl ?_
  cases cause with
  | posted s' =>
    have hs : s' ≠ s := fun h => hc (by rw [h])
    simp [insertReady, mark, hs]
  | created | yielded | signaled => simp [insertReady, mark]

/-- A call of `sem_wait` is a wait on the view. -/
theorem view_semWait {s : ι} {units : ℤ} {t : PUThread} {σ : State ι ε}
    (hr : σ.runningThread = some t) (hn : 0 < units) (hup : (σ.sems s).units ≤ intMax) :
    view s (semWait s units σ) = (view s σ).wait ⟨t, units⟩ := by
  have hnil : (view s σ).waiters = [] ↔ (σ.sems s).waiters = [] := by simp [view]
  simp only [semWait, hr, Sem.wait, hnil]
  by_cases hc : (σ.sems s).waiters = [] ∧ (σ.sems s).units ≥ units
  · have hwrap : wrapInt ((σ.sems s).units - units) = (σ.sems s).units - units :=
      wrapInt_eq (by omega) (by omega)
    have hc' : (σ.sems s).waiters = [] ∧ units ≤ (view s σ).units := hc
    rw [if_pos hc, if_pos hc']
    simp [view, record, setSem, hwrap, mark, hc.1]
  · have hc' : ¬((σ.sems s).waiters = [] ∧ units ≤ (view s σ).units) := hc
    rw [if_neg hc, if_neg hc', utDeactivate, view_schedule]
    simp [view, record, setSem, mark, request]

/-- A call of `sem_wait` on another semaphore leaves the view alone. -/
theorem view_semWait_ne {s s' : ι} (hs : s' ≠ s) (units : ℤ) (σ : State ι ε) :
    view s (semWait s' units σ) = view s σ := by
  cases hr : σ.runningThread with
  | none => simp only [semWait, hr]
  | some t =>
    simp only [semWait, hr]
    split
    · exact view_congr (by simp [record, setSem, Ne.symm hs]) (by simp [record, setSem, mark, hs])
    · rw [utDeactivate, view_schedule]
      exact view_congr (by simp [record, setSem, Ne.symm hs]) (by simp [record, setSem, mark, hs])

/-- The loop of `sem_post` is the serving loop on the view. -/
theorem view_semPostLoop {s : ι} (blocks : List SemWaitBlock) :
    ∀ {σ : State ι ε}, (∀ block ∈ blocks, 0 < block.units) → (σ.sems s).units ≤ intMax →
      view s (semPostLoop s blocks σ) = Sem.serve (blocks.map request) (view s σ) := by
  induction blocks with
  | nil => exact fun _ _ => rfl
  | cons block rest ih =>
    intro σ hpos hup
    have hblock := hpos block List.mem_cons_self
    have hrest : ∀ b ∈ rest, 0 < b.units := fun b hb => hpos b (List.mem_cons_of_mem _ hb)
    rw [semPostLoop, List.map_cons, Sem.serve]
    change _ = if 0 < (σ.sems s).units then
      if (σ.sems s).units < block.units then view s σ else _ else view s σ
    split
    next h0 =>
      split
      · rfl
      next hle =>
        have hwrap : wrapInt ((σ.sems s).units - block.units) = (σ.sems s).units - block.units :=
          wrapInt_eq (by omega) (by omega)
        rw [ih hrest (by simp only [utActivate, insertReady, record, setSem,
          Function.update_self, hwrap]; omega)]
        congr 1
        simp [view, utActivate, insertReady, record, setSem, hwrap, mark, request]
    next => rfl

/-- The clamp of `sem_post` takes the smaller of the sum and the limit. -/
theorem clampedUnits_eq {sem : Semaphore} {units : ℤ} (h0 : 0 ≤ sem.units) (hn : 0 ≤ units)
    (hmax : sem.units + units ≤ intMax) :
    clampedUnits sem units = min (sem.units + units) sem.limit := by
  rw [clampedUnits, wrapInt_eq (by omega) hmax]
  split <;> omega

/-- A call of `sem_post` is a post on the view. -/
theorem view_semPost {s : ι} {units : ℤ} {σ : State ι ε}
    (hpos : ∀ block ∈ (σ.sems s).waiters, 0 < block.units) (h0 : 0 ≤ (σ.sems s).units)
    (hn : 0 ≤ units) (hmax : (σ.sems s).units + units ≤ intMax) :
    view s (semPost s units σ) = (view s σ).post units := by
  have hclamp := clampedUnits_eq h0 hn hmax
  rw [semPost, view_semPostLoop _ hpos (by simp only [record, setSem, Function.update_self]; omega),
    Sem.post]
  congr 1
  simp [view, record, setSem, mark, Sem.deposit, Sem.credit, hclamp]

/-- A call of `sem_post` adds its units up to the limit. It pays requests from the head
of the list with them and readies the threads of these, in order. -/
theorem semPost_releases {s : ι} {units : ℤ} {σ : State ι ε}
    (hpos : ∀ block ∈ (σ.sems s).waiters, 0 < block.units) (h0 : 0 ≤ (σ.sems s).units)
    (hn : 0 ≤ units) (hmax : (σ.sems s).units + units ≤ intMax) :
    ∃ released, (σ.sems s).waiters = released ++ ((semPost s units σ).sems s).waiters ∧
      ((semPost s units σ).sems s).units + (released.map SemWaitBlock.units).sum =
        min ((σ.sems s).units + units) (σ.sems s).limit ∧
      (semPost s units σ).readyQueue = σ.readyQueue ++ released.map SemWaitBlock.thread := by
  obtain ⟨released, hwaiters, hready⟩ := semPost_served σ s units
  obtain ⟨requests, hrequests, hpaid⟩ := post_units units (view s σ)
  rw [← view_semPost hpos h0 hn hmax] at hrequests hpaid
  have hsame : released.map request = requests := by
    have hview : (σ.sems s).waiters.map request =
        requests ++ ((semPost s units σ).sems s).waiters.map request := hrequests
    rw [hwaiters, List.map_append] at hview
    exact List.append_cancel_right hview
  refine ⟨released, hwaiters, ?_, hready⟩
  have hsum : (requests.map Request.units).sum = (released.map SemWaitBlock.units).sum := by
    rw [← hsame, List.map_map]
    rfl
  have hcredit : (σ.sems s).units + (view s σ).credit units =
      min ((σ.sems s).units + units) (σ.sems s).limit := add_sub_cancel _ _
  rw [hsum] at hpaid
  exact hpaid.trans hcredit

/-- A call of `sem_post` on another semaphore leaves the view alone. -/
theorem view_semPost_ne {s s' : ι} (hs : s' ≠ s) (units : ℤ) (σ : State ι ε) :
    view s (semPost s' units σ) = view s σ := by
  have hloop : ∀ (blocks : List SemWaitBlock) (σ : State ι ε),
      view s (semPostLoop s' blocks σ) = view s σ := by
    intro blocks
    induction blocks with
    | nil => exact fun _ => rfl
    | cons block rest ih =>
      intro σ
      rw [semPostLoop]
      split
      · split
        · rfl
        · have hc : Cause.posted s' ≠ (.posted s : Cause ι ε) := by simp [hs]
          rw [ih, utActivate, view_insertReady hc]
          exact view_congr (by simp [record, setSem, Ne.symm hs])
            (by simp [record, setSem, mark, hs])
      · rfl
  rw [semPost, hloop]
  exact view_congr (by simp [record, setSem, Ne.symm hs]) (by simp [record, setSem, mark, hs])

variable [DecidableEq ε]

/-- Events are no business of a semaphore. -/
theorem view_eventWait (s : ι) (e : ε) (σ : State ι ε) : view s (eventWait e σ) = view s σ := by
  cases hr : σ.runningThread with
  | none => simp only [eventWait, hr]
  | some t =>
    simp only [eventWait, hr]
    split
    · rw [utDeactivate, view_schedule]
      exact view_congr rfl (by simp [record, setEvent, mark])
    · rfl

/-- Setting an event is no business of a semaphore. -/
theorem view_eventSet (s : ι) (e : ε) (σ : State ι ε) : view s (eventSet e σ) = view s σ := by
  have hall : ∀ (ts : List PUThread) (σ : State ι ε),
      view s (ts.foldl (fun σ t => utActivate (.signaled e) t σ) σ) = view s σ := by
    intro ts
    induction ts with
    | nil => exact fun _ => rfl
    | cons t rest ih =>
      intro σ
      rw [List.foldl_cons, ih, utActivate, view_insertReady (by simp)]
  rw [eventSet, hall]
  exact view_congr rfl rfl

/-- Steps that neither wait nor post on a semaphore leave its view alone. -/
theorem view_other {s : ι} {σ σ' : State ι ε} {c : Command ι ε}
    (hwait : ∀ n, c ≠ .call (.semWait s n)) (hpost : ∀ n, c ≠ .call (.semPost s n))
    (hstep : next σ c = some σ') : view s σ' = view s σ := by
  cases c with
  | create b =>
    obtain ⟨-, -, rfl⟩ := next_create hstep
    exact (view_insertReady (by simp) _ _).trans (view_congr rfl rfl)
  | enterRun =>
    obtain ⟨-, rfl | rfl⟩ := next_enterRun hstep
    · rfl
    · exact (view_schedule _ _ _).trans (view_congr rfl rfl)
  | leaveRun =>
    obtain ⟨-, -, -, rfl⟩ := next_leaveRun hstep
    exact view_congr rfl rfl
  | call c =>
    obtain ⟨b, hr, -, rfl⟩ := next_call hstep
    cases c with
    | utCreate b => exact (view_insertReady (by simp) _ _).trans (view_congr rfl rfl)
    | utYield =>
      rw [perform, utYield_eq hr]
      split
      · rfl
      · rw [view_schedule, view_insertReady (by simp)]
    | utExit =>
      obtain ⟨-, -, -, -, -, -, hsems, -, hlog⟩ := utExit_fields σ hr
      exact view_dispatch hsems hlog
    | semWait s' n => exact view_semWait_ne (fun hs => hwait n (by rw [hs])) n σ
    | semPost s' n => exact view_semPost_ne (fun hs => hpost n (by rw [hs])) n σ
    | eventWait e => exact view_eventWait s e σ
    | eventSet e => exact view_eventSet s e σ

/-- What a step can do to a semaphore: it waits, it posts, or it leaves the
semaphore alone. -/
theorem view_next {s : ι} {σ σ' : State ι ε} {c : Command ι ε} (hstep : next σ c = some σ') :
    (∃ b n, c = .call (.semWait s n) ∧ σ.runningThread = some (.user b) ∧
      σ' = semWait s n σ) ∨
    (∃ b n, c = .call (.semPost s n) ∧ σ.runningThread = some (.user b) ∧
      σ' = semPost s n σ) ∨
    ((∀ n, c ≠ .call (.semWait s n) ∧ c ≠ .call (.semPost s n)) ∧ view s σ' = view s σ) := by
  by_cases hwait : ∃ n, c = .call (.semWait s n)
  · obtain ⟨n, rfl⟩ := hwait
    obtain ⟨b, hr, -, rfl⟩ := next_call hstep
    exact .inl ⟨b, n, rfl, hr, rfl⟩
  · by_cases hpost : ∃ n, c = .call (.semPost s n)
    · obtain ⟨n, rfl⟩ := hpost
      obtain ⟨b, hr, -, rfl⟩ := next_call hstep
      exact .inr (.inl ⟨b, n, rfl, hr, rfl⟩)
    · have hother := view_other (fun n h => hwait ⟨n, h⟩) (fun n h => hpost ⟨n, h⟩) hstep
      exact .inr (.inr ⟨fun n => ⟨fun h => hwait ⟨n, h⟩, fun h => hpost ⟨n, h⟩⟩, hother⟩)

/-- Calls with positive counts that do not overflow the counter. -/
def PositiveCall (σ : State ι ε) : Command ι ε → Prop
  | .call (.semWait _ n) => 0 < n
  | .call (.semPost s n) => 0 < n ∧ (σ.sems s).units + n ≤ intMax
  | _ => True

/-- Along every run the view of a semaphore stays sound. -/
theorem sound_reachable {sems : ι → Semaphore} {s : ι} {k limit : ℤ}
    (hs : sems s = semInit k limit) (hk : 0 ≤ k) (hl : k ≤ limit) (hmax : limit ≤ intMax)
    {σ : State ι ε} (h : ((library sems).restrict PositiveCall).Reachable σ) :
    Sound k (view s σ) ∧ (σ.sems s).limit = limit := by
  refine System.Reachable.invariant
    (I := fun σ => Sound k (view s σ) ∧ (σ.sems s).limit = limit) ?_ ?_ h
  · rintro σ rfl
    have hview : view s (initial sems : State ι ε) = Sem.init k limit := by
      simp [view, initial, utInit, hs, semInit, Sem.init]
    exact ⟨hview ▸ sound_init hk hl, by simp [initial, utInit, hs, semInit]⟩
  · rintro σ c σ' - ⟨hsound, hlimit⟩ ⟨hc, hstep⟩
    have hlo : 0 ≤ (σ.sems s).units := hsound.lower
    have hup : (σ.sems s).units ≤ (σ.sems s).limit := hsound.upper
    rcases view_next (s := s) hstep with ⟨b, n, rfl, hr, rfl⟩ | ⟨b, n, rfl, hr, rfl⟩ | ⟨-, hview⟩
    · have hn : 0 < n := hc
      have hview := view_semWait hr hn (by omega : (σ.sems s).units ≤ intMax)
      refine ⟨hview ▸ sound_wait hsound hn, ?_⟩
      exact (congrArg Sem.limit hview).trans ((wait_limit _ _).trans hlimit)
    · have hn : 0 < n ∧ (σ.sems s).units + n ≤ intMax := hc
      have hpos : ∀ block ∈ (σ.sems s).waiters, 0 < block.units := fun block hb =>
        hsound.positive (request block) (List.mem_map_of_mem hb)
      have hview := view_semPost hpos hlo hn.1.le hn.2
      refine ⟨hview ▸ sound_post hsound hn.1.le, ?_⟩
      exact (congrArg Sem.limit hview).trans ((post_limit _ _).trans hlimit)
    · exact ⟨hview ▸ hsound, (congrArg Sem.limit hview).trans hlimit⟩

/-- Queue discipline of a semaphore set up by `sem_init`. In every reachable
state the units available are fewer than the head waiter asks for; requests
were granted in the order of the calls, and those not yet granted wait in that
order; each call that had to wait was released at most once, in order, and
each release put its thread in the ready queue once; the units are the initial
ones, plus what posts added, minus every granted request. A call that finds
waiters queues behind them and takes nothing. A post adds its units up to the
limit, pays the requests at the head of the list with them, each in full, and
readies exactly their threads, in order. -/
theorem semaphore_queue_discipline {sems : ι → Semaphore} {s : ι} {k limit : ℤ}
    (hs : sems s = semInit k limit) (hk : 0 ≤ k) (hl : k ≤ limit) (hmax : limit ≤ intMax)
    {σ : State ι ε} (h : ((library sems).restrict PositiveCall).Reachable σ) :
    (∀ block ∈ (σ.sems s).waiters.head?, (σ.sems s).units < block.units) ∧
    calls (view s σ).marks =
      grants (view s σ).marks ++ (σ.sems s).waiters.map request ∧
    blocks (view s σ).marks =
      releases (view s σ).marks ++ (σ.sems s).waiters.map request ∧
    wakes (view s σ).marks = (releases (view s σ).marks).map Request.owner ∧
    (σ.sems s).units = k + credited (view s σ).marks - granted (view s σ).marks ∧
    (∀ b n σ', σ.runningThread = some (.user b) → 0 < n → (σ.sems s).waiters ≠ [] →
      next σ (.call (.semWait s n)) = some σ' →
      (σ'.sems s).waiters.map request = (σ.sems s).waiters.map request ++ [⟨.user b, n⟩] ∧
      (σ'.sems s).units = (σ.sems s).units) ∧
    ∀ b n σ', σ.runningThread = some (.user b) → 0 < n → (σ.sems s).units + n ≤ intMax →
      next σ (.call (.semPost s n)) = some σ' →
      ∃ released, (σ.sems s).waiters = released ++ (σ'.sems s).waiters ∧
        (σ'.sems s).units + (released.map SemWaitBlock.units).sum =
          min ((σ.sems s).units + n) limit ∧
        σ'.readyQueue = σ.readyQueue ++ released.map SemWaitBlock.thread := by
  obtain ⟨hsound, hlimit⟩ := sound_reachable hs hk hl hmax h
  have hup : (σ.sems s).units ≤ (σ.sems s).limit := hsound.upper
  refine ⟨fun block hb => ?_, hsound.order, hsound.queued, hsound.woken, hsound.balance,
    fun b n σ' hr hn hw hstep => ?_, fun b n σ' hr hn hmax hstep => ?_⟩
  · have hhead : request block ∈ (view s σ).waiters.head? := by
      rw [Option.mem_def] at hb ⊢
      simp [view, List.head?_map, hb]
    exact hsound.blockedHead _ hhead
  · have hcall : σ' = semWait s n σ := by
      simpa [next, hr, mallocOk, perform] using hstep.symm
    have hview := view_semWait hr hn (by omega : (σ.sems s).units ≤ intMax)
    have hbehind := wait_behind (s := view s σ) (by simpa [view] using hw) ⟨.user b, n⟩
    rw [← hview, ← hcall] at hbehind
    exact hbehind
  · have hcall : σ' = semPost s n σ := by
      simpa [next, hr, mallocOk, perform] using hstep.symm
    have hpos : ∀ block ∈ (σ.sems s).waiters, 0 < block.units := fun block hb =>
      hsound.positive (request block) (List.mem_map_of_mem hb)
    have hreleased := semPost_releases hpos hsound.lower hn.le hmax
    rwa [← hcall, hlimit] at hreleased

/-- A thread that asks for one unit queues behind one that waits for two, although one
unit is available. A post of one unit then lets the first go on, and the second
waits without any unit left. -/
theorem semaphore_queue_discipline_no_barging :
    ∃ σ σ' : State Unit Empty, (σ.sems ()).units = 1 ∧
      (σ.sems ()).waiters.map request = [⟨.user 0, 2⟩, ⟨.user 1, 1⟩] ∧
      (∀ block ∈ (σ.sems ()).waiters.head?, (σ.sems ()).units < block.units) ∧
      next σ (.call (.semPost () 1)) = some σ' ∧
      (σ'.sems ()).waiters.map request = [⟨.user 1, 1⟩] ∧
      (∃ released, (σ.sems ()).waiters = released ++ (σ'.sems ()).waiters ∧
        (σ'.sems ()).units + (released.map SemWaitBlock.units).sum = min (1 + 1) 3 ∧
        σ'.readyQueue = σ.readyQueue ++ released.map SemWaitBlock.thread) := by
  let sems : Unit → Semaphore := fun _ => semInit 1 3
  have hstart : ((library sems).restrict PositiveCall).Reachable
      (initial sems : State Unit Empty) := .start rfl
  have hcreated := (((hstart.next (a := Command.create 0) ⟨trivial, rfl⟩).next
    (a := Command.create 1) ⟨trivial, rfl⟩).next (a := Command.create 2) ⟨trivial, rfl⟩).next
    (a := Command.enterRun) ⟨trivial, rfl⟩
  have hfirst := hcreated.next (a := Command.call (.semWait () 2)) ⟨show (0 : ℤ) < 2 by decide, rfl⟩
  have hsecond := hfirst.next (a := Command.call (.semWait () 1)) ⟨show (0 : ℤ) < 1 by decide, rfl⟩
  have hinit : sems () = semInit 1 3 := rfl
  have hall := semaphore_queue_discipline hinit (by decide) (by decide) (by decide) hsecond
  exact ⟨_, _, by decide, by decide, hall.1, rfl, by decide,
    hall.2.2.2.2.2.2 2 1 _ rfl (by decide) (by decide) rfl⟩

end SistemasOperativos.UThreadSemaphore
