import SistemasOperativos.ThreadResults

/-!
# The states that user threads report

What `ut_get_state` reports in the library of aula-04-29, whenever user code
runs: the code of a user thread, or the code of the main thread outside of
`UtRun`. `UtCreate64` writes no state, `Schedule` writes one before the switch
for the thread it leaves and one after the switch for the thread it had chosen,
which is not the one that goes on there, and nothing writes `Blocked`.
-/

namespace SistemasOperativos.ThreadStates

open TransitionRuns ThreadResults
open UThread (PUThread)

/-- `ut_get_state`. -/
def utGetState (σ : State) (t : PUThread) : ThreadState := (σ.descriptor t).state

/-- While user code runs the reported states match the scheduler, and no freed descriptor
had its state written. -/
structure StatesMatch (σ : State) : Prop where
  running : ∀ h, σ.runningThread = some (.user h) → utGetState σ (.user h) = .running
  ready : σ.runningThread ≠ some .main → ∀ t ∈ σ.readyQueue, utGetState σ t = .ready
  blocked : σ.runningThread ≠ some .main →
    ∀ h, ∀ t ∈ (σ.descriptor (.user h)).resWaiters, utGetState σ t = .blocked
  freedWrites : σ.freedWrites = []

/-- Steps that switch to no thread. A thread is only created on memory that happens to
hold `Ready`. -/
def Unswitched (σ : State) : Command → Prop
  | .create st _ => st = .ready
  | .enterRun => σ.readyQueue = []
  | _ => True

/-- What holds as long as no user thread has run. -/
structure NeverRun (σ : State) : Prop where
  running : σ.runningThread = none
  ready : ∀ t ∈ σ.readyQueue, utGetState σ t = .ready
  fresh : ∀ t ∈ σ.readyQueue, ∃ h, t = .user h ∧ σ.frame t = .internalStart
  waiters : ∀ h, (σ.descriptor (.user h)).resWaiters = []
  freedWrites : σ.freedWrites = []

theorem NeverRun.statesMatch {σ : State} (h : NeverRun σ) : StatesMatch σ where
  running b hb := by rw [h.running] at hb; cases hb
  ready _ := h.ready
  blocked _ b t ht := by rw [h.waiters b] at ht; cases ht
  freedWrites := h.freedWrites

/-- Changes of the instrumentation, and of what has been freed, do not matter. -/
theorem NeverRun.congr {σ σ' : State} (h : NeverRun σ)
    (hrunning : σ'.runningThread = σ.runningThread) (hqueue : σ'.readyQueue = σ.readyQueue)
    (hdescriptor : σ'.descriptor = σ.descriptor) (hframe : σ'.frame = σ.frame)
    (hwrites : σ'.freedWrites = σ.freedWrites) : NeverRun σ' where
  running := hrunning.trans h.running
  ready := by
    simp only [utGetState, hqueue, hdescriptor]
    exact h.ready
  fresh := by
    simp only [hqueue, hframe]
    exact h.fresh
  waiters := by
    simp only [hdescriptor]
    exact h.waiters
  freedWrites := hwrites.trans h.freedWrites

/-- A thread created on memory that holds `Ready`. -/
theorem NeverRun.create {σ : State} (h : NeverRun σ) (res : Long) :
    NeverRun (utCreate .ready res σ) := by
  have hother : ∀ t, t ≠ .user σ.created →
      (utCreate .ready res σ).descriptor t = σ.descriptor t ∧
        (utCreate .ready res σ).frame t = σ.frame t := fun t ht =>
    ⟨Function.update_of_ne ht _ _, Function.update_of_ne ht _ _⟩
  have hself : (utCreate .ready res σ).descriptor (.user σ.created) = ⟨.ready, false, res, []⟩ ∧
      (utCreate .ready res σ).frame (.user σ.created) = .internalStart :=
    ⟨Function.update_self .., Function.update_self ..⟩
  have hmem : ∀ t ∈ (utCreate .ready res σ).readyQueue, t ≠ .user σ.created → t ∈ σ.readyQueue := by
    intro t ht hne
    rcases List.mem_append.mp ht with ht | ht
    · exact ht
    · exact absurd (List.mem_singleton.mp ht) hne
  refine ⟨h.running, fun t ht => ?_, fun t ht => ?_, fun b => ?_, h.freedWrites⟩
  · by_cases hne : t = .user σ.created
    · rw [utGetState, hne, hself.1]
    · rw [utGetState, (hother t hne).1]
      exact h.ready t (hmem t ht hne)
  · by_cases hne : t = .user σ.created
    · exact ⟨σ.created, hne, hne ▸ hself.2⟩
    · rw [(hother t hne).2]
      exact h.fresh t (hmem t ht hne)
  · by_cases hne : PUThread.user b = .user σ.created
    · rw [hne, hself.1]
    · rw [(hother _ hne).1]
      exact h.waiters b

/-- The first thread of a run of `UtRun` starts with the state it was created with. -/
theorem NeverRun.enterRun {σ σ' : State} (h : NeverRun σ) (hqueue : σ.readyQueue ≠ [])
    (hstep : utRun σ = some σ') :
    ∃ b, σ'.runningThread = some (.user b) ∧ utGetState σ' (.user b) = .ready := by
  obtain ⟨t, rest, hq⟩ := List.exists_cons_of_ne_nil hqueue
  obtain ⟨b, rfl, hframe⟩ := h.fresh t (by simp [hq])
  have hready := h.ready _ (by simp [hq] : PUThread.user b ∈ σ.readyQueue)
  rw [utRun, if_pos h.running, if_neg hqueue] at hstep
  simp only [schedule, extractNextReadyThread, hq, switchIn, Option.some.injEq] at hstep
  subst hstep
  refine ⟨b, ?_, ?_⟩
  · simp [resume, State.setFrame, State.writeState, hframe]
  · simpa [utGetState, resume, State.setFrame, State.writeState, hframe, State.gone] using hready

/-- A request by the main thread returns without a switch. -/
theorem NeverRun.getResult {σ σ' : State} (h : NeverRun σ) {k : ℕ}
    (hstep : utGetThreadResult k σ = some σ') : NeverRun σ' := by
  have hcaller : σ.runningThread.getD .main = .main := by rw [h.running]; rfl
  simp only [utGetThreadResult, hcaller, reduceCtorEq, if_false] at hstep
  by_cases hfreed : σ.freed k = true
  · rw [if_pos hfreed] at hstep
    cases hstep
    exact h.congr rfl rfl rfl rfl rfl
  · rw [if_neg hfreed] at hstep
    by_cases hres : (σ.descriptor (.user k)).hasResult = true
    · simp only [takeResult, hres, if_true] at hstep
      cases hstep
      exact h.congr rfl rfl rfl rfl rfl
    · have hnone : (linkWaiter .main k { σ with calls := σ.calls ++ [(.main, k)] }).runningThread =
          none := h.running
      simp only [takeResult, hres, Bool.false_eq_true, if_false, schedule, hnone,
        reduceCtorEq] at hstep

/-- A trial by the main thread neither. -/
theorem NeverRun.tryGetResult {σ : State} (h : NeverRun σ) (k : ℕ) :
    NeverRun (utTryGetThreadResult k σ) := by
  unfold utTryGetThreadResult takeResult
  split
  · exact h
  · split
    · exact h.congr rfl rfl rfl rfl rfl
    · split
      · exact h.congr rfl rfl rfl rfl rfl
      · exact h

/-- What a step that is not a switch, from a state in which no thread has run, leads to. -/
theorem NeverRun.next {σ σ' : State} {c : Command} (h : NeverRun σ)
    (hstep : ThreadResults.next σ c = some σ') (hc : Unswitched σ c) : NeverRun σ' := by
  have hr := h.running
  cases c with
  | enterRun =>
    have hempty : σ.readyQueue = [] := hc
    have hstay : utRun σ = some σ := by rw [utRun, if_pos hr, if_pos hempty]
    cases hstay.symm.trans hstep
    exact h
  | create st res =>
    obtain rfl : st = .ready := hc
    simp only [ThreadResults.next, hr, reduceCtorEq, if_false] at hstep
    cases hstep
    exact h.create res
  | getResult k =>
    simp only [ThreadResults.next] at hstep
    split at hstep
    · cases hstep
    · exact h.getResult hstep
  | tryGetResult k =>
    simp only [ThreadResults.next] at hstep
    split at hstep
    · cases hstep
    · cases hstep
      exact h.tryGetResult k
  | leaveRun | yield | exit => simp [ThreadResults.next, hr] at hstep

/-- Any other step from there leads to a state that is reported wrongly. -/
theorem NeverRun.mismatch {σ σ' : State} {c : Command} (h : NeverRun σ)
    (hstep : ThreadResults.next σ c = some σ') (hmatch : StatesMatch σ') : Unswitched σ c := by
  have hr := h.running
  cases c with
  | enterRun =>
    by_contra hqueue
    obtain ⟨b, hb, hready⟩ := h.enterRun hqueue hstep
    have hrunning := hmatch.running b hb
    rw [hready] at hrunning
    cases hrunning
  | create st res =>
    simp only [ThreadResults.next, hr, reduceCtorEq, if_false] at hstep
    cases hstep
    have hnone : (utCreate st res σ).runningThread = none := hr
    have hmem : PUThread.user σ.created ∈ (utCreate st res σ).readyQueue :=
      List.mem_append_right _ (List.mem_singleton.mpr rfl)
    have hstate := hmatch.ready (by simp [hnone]) _ hmem
    have hself : (utCreate st res σ).descriptor (.user σ.created) = ⟨st, false, res, []⟩ :=
      Function.update_self ..
    rwa [utGetState, hself] at hstate
  | leaveRun | yield | exit | getResult | tryGetResult => trivial

theorem neverRun_initial : NeverRun initial where
  running := rfl
  ready t ht := by cases ht
  fresh t ht := by cases ht
  waiters _ := rfl
  freedWrites := rfl

/-- The reported states match the scheduler along a run exactly if the run switches to no
thread, and malloc happened to return memory that holds `Ready` for every descriptor. -/
theorem states_match_iff {σ : State} {trace : List (Transition State Command)}
    (hrun : library.Run initial trace σ) :
    (∀ x ∈ trace, StatesMatch x.target) ↔ ∀ x ∈ trace, Unswitched x.source x.label :=
  hrun.forall_good_iff_of_invariant neverRun_initial (fun _ h => h.statesMatch)
    (fun _ _ _ h hstep hc => h.next hstep hc) fun _ _ _ h hstep hmatch => h.mismatch hstep hmatch

/-- A thread that is created and waits for `UtRun` is reported as it should be. -/
theorem states_match_iff_created :
    StatesMatch (utCreate .ready 0 initial) := by
  have hrun := (System.Run.nil (S := library) initial).snoc (a := Command.create .ready 0) rfl
  refine (states_match_iff hrun).mpr ?_ _ (List.mem_append_right _ (List.mem_singleton.mpr rfl))
  intro x hx
  rw [List.mem_singleton.mp hx]
  rfl

/-- Two threads that yield to each other. Back in the first one, the running thread is
reported as ready, and the one that waits in the ready queue as running. -/
theorem yielding_threads_swapped :
    ∃ σ, library.Reachable σ ∧ σ.runningThread = some (.user 0) ∧
      utGetState σ (.user 0) = .ready ∧ σ.readyQueue = [.user 1] ∧
      utGetState σ (.user 1) = .running ∧ ¬ StatesMatch σ := by
  have hcreated := ((System.Reachable.start (S := library) (s := initial) rfl).next
    (a := Command.create .ready 0) rfl).next (a := Command.create .ready 0) rfl
  have hyielded := ((hcreated.next (a := Command.enterRun) rfl).next
    (a := Command.yield) rfl).next (a := Command.yield) rfl
  refine ⟨_, hyielded, rfl, rfl, rfl, rfl, fun hmatch => ?_⟩
  have hrunning := hmatch.running 0 rfl
  cases hrunning

end SistemasOperativos.ThreadStates
