import Mathlib.Tactic
import SistemasOperativos.Census
import SistemasOperativos.ThreadResults
import SistemasOperativos.TokenPlaces

/-!
# Results reach every requester that asks in time

A descriptor is freed by the exit when somebody waits, and by the first request
after the exit otherwise. A request for a thread that has exited is in time when
it is the first one. As long as all requests are, no freed descriptor is read,
and every call returns the value that the thread passed to `UtExit`.
-/

namespace SistemasOperativos.ThreadResults

open TransitionRuns TokenPlaces Census
open UThread (PUThread)

/-- The places where a thread can be. -/
inductive Place
  | running
  | ready
  /-- Its wait block is linked in the descriptor of a thread. -/
  | waiting (h : ℕ)
  deriving DecidableEq

/-- How often a thread is linked in a place. -/
def occ (σ : State) (t : PUThread) : Place → ℕ
  | .running => σ.runningThread.toList.count t
  | .ready => σ.readyQueue.count t
  | .waiting h => (σ.descriptor (.user h)).resWaiters.count t

/-- The thread whose result a suspended thread is about to get. -/
def Frame.asksFor : Frame → Option ℕ
  | .utGetThreadResult h _ => some h
  | _ => none

/-- Caller and handle of a call that has returned. -/
def Return.call (r : Return) : PUThread × ℕ := (r.caller, r.handle)

/-- Every call for another thread has what it asked for, or waits for it. -/
structure Served (σ : State) : Prop where
  /-- A call that has returned gave TRUE and the value passed to `UtExit`. -/
  returned : ∀ r ∈ σ.returns, r.caller ≠ .user r.handle →
    ∃ v, r.value = some v ∧ σ.exitValue r.handle = some v
  /-- A call that has not returned waits for a thread that has not exited, or has
  the value in its wait block and is about to go on. -/
  pending : ∀ t h, (σ.frame t).asksFor = some h →
    (σ.exitValue h = none ∧ occ σ t (.waiting h) = 1 ∧ occ σ t .ready = 0) ∨
      ∃ v, σ.exitValue h = some v ∧ σ.result t = v ∧ occ σ t .ready = 1
  /-- All calls are of one of these two kinds, and outside `UtRun` all have returned. -/
  accounted : (∀ t h, t ≠ .user h → σ.calls.count (t, h) =
      (σ.returns.map Return.call).count (t, h) + if (σ.frame t).asksFor = some h then 1 else 0) ∧
    (σ.mainThread = none → ∀ t, (σ.frame t).asksFor = none)
  /-- A thread that blocked was made ready once, by the exit. -/
  activated : ∀ t h, σ.blocks t h ≤ 1 ∧
    σ.activations t h = if σ.exitValue h = none then 0 else σ.blocks t h
  /-- No freed descriptor was read. -/
  reads : σ.freedReads = []

/-- A call for a thread that has exited is the first one for its result. -/
def InTime (σ : State) : Command → Prop
  | .getResult h | .tryGetResult h =>
    σ.runningThread ≠ some (.user h) → σ.exitValue h ≠ none → σ.asked h = false
  | _ => True

/-- Where every thread, every value and every call is. -/
structure Inv (σ : State) (loc : PUThread → Option Place) : Prop where
  placed : Placed (occ σ) loc
  /-- The main thread is never linked anywhere. -/
  proxy : ∀ k, loc .main = some k → k = .running
  /-- While some thread runs, `main_thread` points to the proxy. -/
  inside : σ.runningThread ≠ none → σ.mainThread = some .main
  /-- The user threads that have a place are those created and not yet exited. -/
  alive : ∀ p, (loc (.user p)).isSome ↔ p < σ.created ∧ σ.exitValue p = none
  /-- The counter counts them. -/
  counted : Standing (fun p => loc (.user p)) (fun k => k.isSome) σ.numberOfThreads
  /-- Nobody asks for a thread that does not exist. -/
  unborn : ∀ p, σ.created ≤ p → σ.exitValue p = none ∧ σ.asked p = false
  /-- A thread that has not exited has its descriptor, with those that asked. -/
  unfinished : ∀ h, σ.exitValue h = none → σ.freed h = false ∧
    (σ.descriptor (.user h)).hasResult = false ∧
      (σ.asked h = true ↔ (σ.descriptor (.user h)).resWaiters ≠ [])
  /-- A thread that has exited has its descriptor until somebody asks. -/
  finished : ∀ h v, σ.exitValue h = some v → (σ.descriptor (.user h)).resWaiters = [] ∧
    σ.freed h = σ.asked h ∧ (σ.asked h = false →
      (σ.descriptor (.user h)).hasResult = true ∧ (σ.descriptor (.user h)).res = v)
  /-- Who is linked in a descriptor is inside a call. -/
  waiting : ∀ t h, loc t = some (.waiting h) → (σ.frame t).asksFor = some h
  /-- Who is inside a call waits, or is ready with the value. -/
  calling : ∀ t h, (σ.frame t).asksFor = some h → loc t = some (.waiting h) ∨
    loc t = some .ready ∧ σ.exitValue h = some (σ.result t)
  /-- Outside `UtRun` nobody is inside a call. -/
  idle : σ.mainThread = none → ∀ t, (σ.frame t).asksFor = none
  returned : ∀ r ∈ σ.returns, r.caller ≠ .user r.handle →
    ∃ v, r.value = some v ∧ σ.exitValue r.handle = some v
  accounted : ∀ t h, t ≠ .user h → σ.calls.count (t, h) =
    (σ.returns.map Return.call).count (t, h) + if (σ.frame t).asksFor = some h then 1 else 0
  /-- A thread that blocked still waits, or was made ready. -/
  blocked : ∀ t h, σ.blocks t h = (if loc t = some (.waiting h) then 1 else 0) + σ.activations t h
  activated : ∀ t h, σ.activations t h ≤ 1 ∧ (σ.exitValue h = none → σ.activations t h = 0)
  reads : σ.freedReads = []

/-- The invariant says that every call is served. -/
theorem Inv.served {σ : State} {loc : PUThread → Option Place} (h : Inv σ loc) : Served σ where
  returned := h.returned
  pending := by
    intro t k hk
    rcases h.calling t k hk with hloc | ⟨hloc, hvalue⟩
    · have hcount := h.placed t (.waiting k)
      have hready := h.placed t .ready
      rw [hloc, if_pos rfl] at hcount
      rw [hloc, if_neg (by simp)] at hready
      refine .inl ⟨?_, hcount, hready⟩
      cases hexit : σ.exitValue k with
      | none => rfl
      | some v =>
        have hempty := (h.finished k v hexit).1
        simp [occ, hempty] at hcount
    · have hready := h.placed t .ready
      rw [hloc, if_pos rfl] at hready
      exact .inr ⟨_, hvalue, rfl, hready⟩
  accounted := ⟨h.accounted, h.idle⟩
  activated := by
    intro t k
    obtain ⟨hle, hnone⟩ := h.activated t k
    have hblocked := h.blocked t k
    cases hexit : σ.exitValue k with
    | none =>
      have hzero := hnone hexit
      rw [if_pos rfl]
      refine ⟨?_, hzero⟩
      rw [hblocked, hzero]
      split <;> decide
    | some v =>
      have hempty := (h.finished k v hexit).1
      have hplace : loc t ≠ some (.waiting k) := by
        intro hloc
        have hcount := h.placed.pos_iff.mpr hloc
        simp [occ, hempty] at hcount
      rw [if_neg hplace, Nat.zero_add] at hblocked
      rw [if_neg (by simp)]
      exact ⟨hblocked ▸ hle, hblocked.symm⟩
  reads := h.reads

/-- The state as seen while no thread runs. -/
def parked (σ : State) : State := { σ with runningThread := none }

section Fields

variable {σ : State} {loc : PUThread → Option Place}

/-- Writing the field `state` leaves all that matters for results alone. -/
theorem writeState_eq (σ : State) (t : PUThread) (st : ThreadState) :
    ∃ descriptor freedWrites, σ.writeState t st =
        { σ with descriptor := descriptor, freedWrites := freedWrites } ∧
      ∀ u, (descriptor u).hasResult = (σ.descriptor u).hasResult ∧
        (descriptor u).res = (σ.descriptor u).res ∧
        (descriptor u).resWaiters = (σ.descriptor u).resWaiters := by
  refine ⟨_, _, rfl, fun u => ?_⟩
  split
  · exact ⟨rfl, rfl, rfl⟩
  · rcases eq_or_ne u t with rfl | hu
    · rw [Function.update_self]
      exact ⟨rfl, rfl, rfl⟩
    · rw [Function.update_of_ne hu]
      exact ⟨rfl, rfl, rfl⟩

/-- Descriptors with the same results and waiters do. -/
theorem Inv.congr_descriptor (h : Inv σ loc) {descriptor : PUThread → Descriptor}
    {freedWrites : List PUThread}
    (hsame : ∀ u, (descriptor u).hasResult = (σ.descriptor u).hasResult ∧
      (descriptor u).res = (σ.descriptor u).res ∧
      (descriptor u).resWaiters = (σ.descriptor u).resWaiters) :
    Inv { σ with descriptor := descriptor, freedWrites := freedWrites } loc := by
  refine { h with placed := ?_, unfinished := ?_, finished := ?_ }
  · intro t k
    rw [← h.placed t k]
    cases k with
    | waiting p => simp only [occ, (hsame _).2.2]
    | running | ready => rfl
  · intro p hp
    have hdescriptor := h.unfinished p hp
    rw [← (hsame _).1, ← (hsame _).2.2] at hdescriptor
    exact hdescriptor
  · intro p v hp
    have hdescriptor := h.finished p v hp
    rw [← (hsame _).1, ← (hsame _).2.1, ← (hsame _).2.2] at hdescriptor
    exact hdescriptor

theorem Inv.writeState (h : Inv σ loc) (t : PUThread) (st : ThreadState) :
    Inv (σ.writeState t st) loc := by
  obtain ⟨descriptor, freedWrites, heq, hsame⟩ := writeState_eq σ t st
  rw [heq]
  exact h.congr_descriptor hsame

/-- A frame that agrees with the place of its thread. -/
theorem Inv.setFrame (h : Inv σ loc) {t : PUThread} {f : Frame}
    (hf : f.asksFor = (σ.frame t).asksFor) : Inv (σ.setFrame t f) loc := by
  have hasks : ∀ u, ((σ.setFrame t f).frame u).asksFor = (σ.frame u).asksFor := by
    intro u
    rcases eq_or_ne u t with rfl | hu
    · show (Function.update σ.frame u f u).asksFor = _
      rw [Function.update_self, hf]
    · show (Function.update σ.frame t f u).asksFor = _
      rw [Function.update_of_ne hu]
  refine { h with waiting := ?_, calling := ?_, idle := ?_, accounted := ?_ }
  · intro u k hk
    rw [hasks]
    exact h.waiting u k hk
  · intro u k hk
    rw [hasks] at hk
    exact h.calling u k hk
  · intro hm u
    rw [hasks]
    exact h.idle hm u
  · intro u k hne
    rw [hasks]
    exact h.accounted u k hne

end Fields

section Switch

variable {σ : State} {loc : PUThread → Option Place} {t : PUThread} {rest : List PUThread}

/-- The thread that is switched in: the head of the ready queue, or the main
thread when the queue is empty. -/
def NextIn (σ : State) (loc : PUThread → Option Place) (t : PUThread) (rest : List PUThread) : Prop :=
  (loc t = some .ready ∧ σ.readyQueue = t :: rest) ∨
    (t = .main ∧ loc t = none ∧ σ.readyQueue = [] ∧ rest = [])

/-- The switch moves one thread to the processor. -/
theorem Inv.placed_enter (h : Inv σ loc) (hr : σ.runningThread = none) (ht : NextIn σ loc t rest) :
    Placed (occ { σ with readyQueue := rest, runningThread := some t })
      (Function.update loc t (some .running)) := by
  refine h.placed.update t _ fun u k => ?_
  rcases ht with ⟨hloc, hq⟩ | ⟨-, hloc, hq, rfl⟩
  · rcases eq_or_ne u t with rfl | hu
    · cases k <;> simp [occ, hr, hq, hloc]
    · cases k <;> simp [occ, hr, hq, hu, Ne.symm hu]
  · rcases eq_or_ne u t with rfl | hu
    · cases k <;> simp [occ, hr, hq, hloc]
    · cases k <;> simp [occ, hr, hq, hu, Ne.symm hu]

/-- It stays alive if it was. -/
theorem isSome_enter (ht : NextIn σ loc t rest) (p : ℕ) :
    (Function.update loc t (some .running) (.user p)).isSome = (loc (.user p)).isSome := by
  rcases eq_or_ne (.user p) t with rfl | hp
  · rcases ht with ⟨hloc, -⟩ | ⟨hmain, -⟩
    · rw [Function.update_self, hloc]
      rfl
    · cases hmain
  · rw [Function.update_of_ne hp]

/-- Nobody waits at the place of the thread that is switched in. -/
theorem waiting_enter {u : PUThread} {k : ℕ} (ht : NextIn σ loc t rest) :
    Function.update loc t (some .running) u = some (.waiting k) ↔ loc u = some (.waiting k) := by
  rcases eq_or_ne u t with rfl | hu
  · rcases ht with ⟨hloc, -⟩ | ⟨-, hloc, -⟩ <;> simp [hloc]
  · rw [Function.update_of_ne hu]

/-- A thread is switched in that is not inside a call. -/
theorem Inv.enter (h : Inv σ loc) (hr : σ.runningThread = none) (hm : σ.mainThread = some .main)
    (ht : NextIn σ loc t rest) (hf : (σ.frame t).asksFor = none) :
    Inv { σ with readyQueue := rest, runningThread := some t }
      (Function.update loc t (some .running)) := by
  refine { h with
    placed := h.placed_enter hr ht, proxy := ?_, inside := fun _ => hm, alive := ?_, counted := ?_,
    waiting := ?_, calling := ?_, blocked := ?_ }
  · intro k hk
    rcases eq_or_ne .main t with rfl | hne
    · rw [Function.update_self] at hk
      exact (Option.some.inj hk).symm
    · rw [Function.update_of_ne hne] at hk
      exact h.proxy k hk
  · intro p
    rw [isSome_enter ht]
    exact h.alive p
  · refine h.counted.congr fun p => ?_
    rw [isSome_enter ht]
  · intro u k hk
    exact h.waiting u k ((waiting_enter ht).mp hk)
  · intro u k hk
    have hu : u ≠ t := by
      rintro rfl
      rw [hf] at hk
      cases hk
    rw [Function.update_of_ne hu]
    exact h.calling u k hk
  · intro u k
    simp only [waiting_enter ht]
    exact h.blocked u k

/-- A thread is switched in inside a call, which returns the value in its wait block. -/
theorem Inv.enter_return (h : Inv σ loc) (hr : σ.runningThread = none)
    (hm : σ.mainThread = some .main) (hloc : loc t = some .ready) (hq : σ.readyQueue = t :: rest)
    {k : ℕ} (hf : (σ.frame t).asksFor = some k) :
    Inv (({ σ with readyQueue := rest, runningThread := some t }.setFrame t .userCode).giveBack
      t k (some (σ.result t))) (Function.update loc t (some .running)) := by
  have ht : NextIn σ loc t rest := .inl ⟨hloc, hq⟩
  have hvalue : σ.exitValue k = some (σ.result t) := by
    rcases h.calling t k hf with hwaits | ⟨-, hvalue⟩
    · rw [hloc] at hwaits
      cases hwaits
    · exact hvalue
  have hasks : ∀ u j, (Function.update σ.frame t .userCode u).asksFor = some j ↔
      u ≠ t ∧ (σ.frame u).asksFor = some j := by
    intro u j
    rcases eq_or_ne u t with rfl | hu
    · rw [Function.update_self]
      exact ⟨nofun, fun hand => absurd rfl hand.1⟩
    · rw [Function.update_of_ne hu]
      exact ⟨fun he => ⟨hu, he⟩, And.right⟩
  refine { h with
    placed := h.placed_enter hr ht, proxy := ?_, inside := fun _ => hm, alive := ?_, counted := ?_,
    waiting := ?_, calling := ?_, idle := ?_, returned := ?_, accounted := ?_, blocked := ?_ }
  · intro j hj
    have hne : PUThread.main ≠ t := by
      rintro rfl
      have hrun := h.proxy _ hloc
      cases hrun
    rw [Function.update_of_ne hne] at hj
    exact h.proxy j hj
  · intro p
    rw [isSome_enter ht]
    exact h.alive p
  · refine h.counted.congr fun p => ?_
    rw [isSome_enter ht]
  · intro u j hj
    rw [waiting_enter ht] at hj
    refine (hasks u j).mpr ⟨?_, h.waiting u j hj⟩
    rintro rfl
    rw [hloc] at hj
    cases hj
  · intro u j hj
    obtain ⟨hu, hj⟩ := (hasks u j).mp hj
    rw [Function.update_of_ne hu]
    exact h.calling u j hj
  · intro hnone
    rw [show σ.mainThread = none from hnone] at hm
    cases hm
  · exact List.forall_mem_append.mpr ⟨h.returned,
      List.forall_mem_singleton.mpr fun _ => ⟨_, rfl, hvalue⟩⟩
  · intro u j hne
    have hbefore := h.accounted u j hne
    show σ.calls.count (u, j) = ((σ.returns ++ [_]).map Return.call).count (u, j) + _
    rw [List.map_append, List.count_append, hbefore]
    simp only [State.giveBack, State.setFrame, hasks]
    rcases eq_or_ne u t with rfl | hu
    · rcases eq_or_ne j k with rfl | hj
      · simp [Return.call, hf]
      · simp [Return.call, hf, Ne.symm hj]
    · simp [Return.call, hu, Ne.symm hu]
  · intro u j
    simp only [waiting_enter ht]
    exact h.blocked u j

/-- A thread that was not inside a call goes on with its user code. -/
theorem Inv.resume (h : Inv σ loc) (hf : (σ.frame t).asksFor = none) : Inv (resume t σ) loc := by
  have hwrite : ∀ next, Inv ((σ.writeState next .running).setFrame t .userCode) loc := by
    intro next
    obtain ⟨descriptor, freedWrites, heq, hsame⟩ := writeState_eq σ next .running
    rw [heq]
    exact (h.congr_descriptor hsame).setFrame hf.symm
  unfold ThreadResults.resume
  cases hframe : σ.frame t with
  | userCode | internalStart => exact h.setFrame hf.symm
  | utRun next | utYield next => exact hwrite next
  | utGetThreadResult k next =>
    rw [hframe] at hf
    cases hf

/-- Switch to the next thread. -/
def switch (σ : State) : State := switchIn (extractNextReadyThread σ).1 (extractNextReadyThread σ).2

/-- Whoever is switched in, every call stays served. -/
theorem Inv.switch (h : Inv σ loc) (hr : σ.runningThread = none) (hm : σ.mainThread = some .main) :
    ∃ loc', Inv (switch σ) loc' := by
  unfold ThreadResults.switch extractNextReadyThread
  cases hq : σ.readyQueue with
  | nil =>
    dsimp only
    rw [hm]
    have hmain : loc .main = none := by
      cases hloc : loc .main with
      | none => rfl
      | some k =>
        rw [h.proxy k hloc] at hloc
        have hcount := h.placed.pos_iff.mpr hloc
        simp [occ, hr] at hcount
    have hf : (σ.frame .main).asksFor = none := by
      cases hasks : (σ.frame .main).asksFor with
      | none => rfl
      | some k =>
        rcases h.calling .main k hasks with hloc | ⟨hloc, -⟩ <;> rw [hmain] at hloc <;> cases hloc
    have henter := h.enter hr hm (.inr ⟨rfl, hmain, hq, rfl⟩) hf
    rw [← hq] at henter
    exact ⟨_, henter.resume hf⟩
  | cons t rest =>
    have hloc : loc t = some .ready := h.placed.pos_iff.mp (by simp [occ, hq])
    cases hf : (σ.frame t).asksFor with
    | none => exact ⟨_, (h.enter hr hm (.inl ⟨hloc, hq⟩) hf).resume hf⟩
    | some k =>
      dsimp only [switchIn]
      unfold ThreadResults.resume
      cases hframe : σ.frame t with
      | utGetThreadResult j next =>
        dsimp only
        obtain ⟨descriptor, freedWrites, heq, hsame⟩ := writeState_eq
          { σ with readyQueue := rest, runningThread := some t } next .running
        have hj : (σ.frame t).asksFor = some j := by rw [hframe]; rfl
        rw [heq]
        exact ⟨_, (h.congr_descriptor hsame).enter_return hr hm hloc hq hj⟩
      | userCode | internalStart | utRun | utYield =>
        rw [hframe] at hf
        cases hf

/-- `Schedule` parks the running thread in its frame and switches. -/
theorem schedule_eq (σ : State) (frame : PUThread → Frame) (hr : σ.runningThread = some t) :
    ∃ f, (∃ n, f = frame n) ∧
      schedule frame σ = some (switch ((parked (σ.setFrame t f)).writeState t .ready)) := by
  refine ⟨_, ⟨(extractNextReadyThread σ).1.getD .main, rfl⟩, ?_⟩
  obtain ⟨_ | ⟨u, rest⟩, r, _ | m⟩ := σ
  all_goals
    obtain rfl : r = some t := hr
    rfl

end Switch

section Calls

variable {σ : State} {loc : PUThread → Option Place} {t : PUThread} {p k : ℕ}

/-- The running thread is at its place. -/
theorem Inv.running (h : Inv σ loc) (hr : σ.runningThread = some t) : loc t = some .running :=
  h.placed.pos_iff.mp (by simp [occ, hr])

/-- It is not inside a call. -/
theorem Inv.not_calling (h : Inv σ loc) (hloc : loc t = some .running) :
    (σ.frame t).asksFor = none := by
  cases hasks : (σ.frame t).asksFor with
  | none => rfl
  | some k =>
    rcases h.calling t k hasks with hplace | ⟨hplace, -⟩ <;> rw [hloc] at hplace <;> cases hplace

/-- A thread that changes its place stays alive. -/
theorem isSome_move {place : Place} (hsome : (loc t).isSome) (u : PUThread) :
    (Function.update loc t (some place) u).isSome = (loc u).isSome := by
  rcases eq_or_ne u t with rfl | hu
  · rw [Function.update_self, hsome]
    rfl
  · rw [Function.update_of_ne hu]

/-- The running thread goes to the end of the ready queue. -/
theorem Inv.yield (h : Inv σ loc) (hr : σ.runningThread = some (.user p)) :
    Inv (parked (utActivate (.user p) σ)) (Function.update loc (.user p) (some .ready)) := by
  have hloc := h.running hr
  have hf := h.not_calling hloc
  have hsome : (loc (.user p)).isSome := by rw [hloc]; rfl
  have hwait : ∀ u j, Function.update loc (.user p) (some .ready) u = some (.waiting j) ↔
      loc u = some (.waiting j) := by
    intro u j
    rcases eq_or_ne u (.user p) with rfl | hu
    · simp [hloc]
    · rw [Function.update_of_ne hu]
  refine { h with
    placed := ?_, proxy := ?_, inside := fun hne => absurd rfl hne, alive := ?_, counted := ?_,
    waiting := ?_, calling := ?_, blocked := ?_ }
  · refine h.placed.update _ _ fun u k => ?_
    rcases eq_or_ne u (.user p) with rfl | hu
    · cases k <;> simp [occ, parked, utActivate, hr, hloc]
    · cases k <;> simp [occ, parked, utActivate, hr, hu, Ne.symm hu]
  · intro j hj
    have hne : PUThread.main ≠ .user p := nofun
    rw [Function.update_of_ne hne] at hj
    exact h.proxy j hj
  · intro q
    rw [isSome_move hsome]
    exact h.alive q
  · refine h.counted.congr fun q => ?_
    rw [isSome_move hsome]
  · intro u j hj
    exact h.waiting u j ((hwait u j).mp hj)
  · intro u j hj
    have hu : u ≠ .user p := by
      rintro rfl
      rw [show (σ.frame (.user p)).asksFor = some j from hj] at hf
      cases hf
    rw [Function.update_of_ne hu]
    exact h.calling u j hj
  · intro u j
    simp only [hwait]
    exact h.blocked u j

/-- The running thread is linked in the descriptor of a thread that has not exited. -/
theorem Inv.block (h : Inv σ loc) (hr : σ.runningThread = some (.user p)) (hk : k < σ.created)
    (hexit : σ.exitValue k = none) (next : PUThread) :
    Inv (parked ((linkWaiter (.user p) k { σ with calls := σ.calls ++ [(.user p, k)] }).setFrame
      (.user p) (.utGetThreadResult k next))) (Function.update loc (.user p) (some (.waiting k))) := by
  have hloc := h.running hr
  have hf := h.not_calling hloc
  have hsome : (loc (.user p)).isSome := by rw [hloc]; rfl
  have hasks : ∀ u j, (Function.update σ.frame (.user p) (.utGetThreadResult k next) u).asksFor =
      some j ↔ (u = .user p ∧ j = k) ∨ (u ≠ .user p ∧ (σ.frame u).asksFor = some j) := by
    intro u j
    rcases eq_or_ne u (.user p) with rfl | hu
    · simp [Frame.asksFor, eq_comm]
    · simp [hu]
  have hdescriptor : ∀ j, j ≠ k → Function.update σ.descriptor (.user k)
      { σ.descriptor (.user k) with
        resWaiters := (σ.descriptor (.user k)).resWaiters ++ [.user p] } (.user j) =
      σ.descriptor (.user j) :=
    fun j hj => Function.update_of_ne (fun he => hj (PUThread.user.inj he)) _ _
  refine { h with
    placed := ?_, proxy := ?_, inside := fun hne => absurd rfl hne, alive := ?_, counted := ?_,
    unborn := ?_, unfinished := ?_, finished := ?_, waiting := ?_, calling := ?_, idle := ?_,
    accounted := ?_, blocked := ?_ }
  · refine h.placed.update _ _ fun u place => ?_
    cases place with
    | running | ready =>
      rcases eq_or_ne u (.user p) with rfl | hu
      · simp [occ, parked, linkWaiter, State.setFrame, State.setDescriptor, hr, hloc]
      · simp [occ, parked, linkWaiter, State.setFrame, State.setDescriptor, hr, hu, Ne.symm hu]
    | waiting j =>
      show ((Function.update σ.descriptor (.user k) _ (.user j)).resWaiters.count u) + _ =
        (σ.descriptor (.user j)).resWaiters.count u + _
      rcases eq_or_ne j k with rfl | hj
      · rw [Function.update_self, List.count_append, hloc]
        rcases eq_or_ne u (.user p) with rfl | hu
        · simp
        · simp [hu, Ne.symm hu]
      · rw [hdescriptor j hj, hloc]
        simp [Ne.symm hj]
  · intro j hj
    have hne : PUThread.main ≠ .user p := nofun
    rw [Function.update_of_ne hne] at hj
    exact h.proxy j hj
  · intro q
    rw [isSome_move hsome]
    exact h.alive q
  · refine h.counted.congr fun q => ?_
    rw [isSome_move hsome]
  · intro q hq
    have hne : q ≠ k := fun he => absurd hk (Nat.not_lt.mpr (he ▸ hq))
    refine ⟨(h.unborn q hq).1, ?_⟩
    show Function.update σ.asked k true q = false
    rw [Function.update_of_ne hne]
    exact (h.unborn q hq).2
  · intro j hj
    obtain ⟨hfreed, hresult, hiff⟩ := h.unfinished j hj
    show σ.freed j = false ∧ (Function.update σ.descriptor (.user k) _ (.user j)).hasResult = false ∧
      (Function.update σ.asked k true j = true ↔
        (Function.update σ.descriptor (.user k) _ (.user j)).resWaiters ≠ [])
    rcases eq_or_ne j k with rfl | hne
    · rw [Function.update_self, Function.update_self]
      exact ⟨hfreed, hresult, by simp⟩
    · rw [hdescriptor j hne, Function.update_of_ne hne]
      exact ⟨hfreed, hresult, hiff⟩
  · intro j v hj
    have hne : j ≠ k := by
      rintro rfl
      rw [show σ.exitValue j = some v from hj] at hexit
      cases hexit
    show (Function.update σ.descriptor (.user k) _ (.user j)).resWaiters = [] ∧
      σ.freed j = Function.update σ.asked k true j ∧ (Function.update σ.asked k true j = false →
        (Function.update σ.descriptor (.user k) _ (.user j)).hasResult = true ∧
        (Function.update σ.descriptor (.user k) _ (.user j)).res = v)
    rw [hdescriptor j hne, Function.update_of_ne hne]
    exact h.finished j v hj
  · intro u j hj
    refine (hasks u j).mpr ?_
    rcases eq_or_ne u (.user p) with rfl | hu
    · rw [Function.update_self] at hj
      cases hj
      exact .inl ⟨rfl, rfl⟩
    · rw [Function.update_of_ne hu] at hj
      exact .inr ⟨hu, h.waiting u j hj⟩
  · intro u j hj
    rcases (hasks u j).mp hj with ⟨rfl, rfl⟩ | ⟨hu, hj⟩
    · exact .inl (Function.update_self ..)
    · rw [Function.update_of_ne hu]
      exact h.calling u j hj
  · intro hnone
    rw [h.inside (by rw [hr]; nofun)] at hnone
    cases hnone
  · intro u j hne
    have hbefore := h.accounted u j hne
    show (σ.calls ++ [(PUThread.user p, k)]).count (u, j) = (σ.returns.map Return.call).count (u, j) +
      if (Function.update σ.frame (.user p) (.utGetThreadResult k next) u).asksFor = some j
        then 1 else 0
    rw [List.count_append, hbefore]
    simp only [hasks]
    rcases eq_or_ne u (.user p) with rfl | hu
    · rcases eq_or_ne j k with rfl | hj
      · simp [hf]
      · simp [hf, hj, Ne.symm hj]
    · simp [hu, Ne.symm hu]
  · intro u j
    have hbefore := h.blocked u j
    show Function.update σ.blocks (.user p) (Function.update (σ.blocks (.user p)) k
      (σ.blocks (.user p) k + 1)) u j = _
    rcases eq_or_ne u (.user p) with rfl | hu
    · rcases eq_or_ne j k with rfl | hj
      · rw [hloc, if_neg (by simp)] at hbefore
        rw [Function.update_self, Function.update_self, Function.update_self, if_pos rfl, hbefore]
        show 0 + σ.activations (.user p) j + 1 = 1 + σ.activations (.user p) j
        omega
      · rw [hloc, if_neg (by simp)] at hbefore
        rw [Function.update_self, Function.update_of_ne hj, Function.update_self,
          if_neg (by simp [Ne.symm hj])]
        exact hbefore
    · rw [Function.update_of_ne hu, Function.update_of_ne hu]
      exact hbefore

/-- Somebody takes the value of a thread that has exited, and frees its descriptor. -/
theorem Inv.take (h : Inv σ loc) {v : Long} (hexit : σ.exitValue k = some v) :
    Inv { σ.free k with asked := Function.update σ.asked k true } loc := by
  refine { h with unborn := ?_, unfinished := ?_, finished := ?_ }
  · intro q hq
    obtain ⟨hnone, hasked⟩ := h.unborn q hq
    refine ⟨hnone, ?_⟩
    show Function.update σ.asked k true q = false
    have hne : q ≠ k := by
      rintro rfl
      rw [hnone] at hexit
      cases hexit
    rw [Function.update_of_ne hne]
    exact hasked
  · intro j hj
    have hne : j ≠ k := by
      rintro rfl
      rw [show σ.exitValue j = none from hj] at hexit
      cases hexit
    show Function.update σ.freed k true j = false ∧ _ ∧ (Function.update σ.asked k true j = true ↔ _)
    rw [Function.update_of_ne hne, Function.update_of_ne hne]
    exact h.unfinished j hj
  · intro j w hj
    obtain ⟨hempty, hfreed, hvalue⟩ := h.finished j w hj
    refine ⟨hempty, ?_⟩
    show Function.update σ.freed k true j = Function.update σ.asked k true j ∧
      (Function.update σ.asked k true j = false → _)
    rcases eq_or_ne j k with rfl | hne
    · rw [Function.update_self, Function.update_self]
      exact ⟨rfl, nofun⟩
    · rw [Function.update_of_ne hne, Function.update_of_ne hne]
      exact ⟨hfreed, hvalue⟩

/-- A call that returns at once, with the value. -/
theorem Inv.giveBack (h : Inv σ loc) {v : Long} (hexit : σ.exitValue k = some v) :
    Inv ({ σ with calls := σ.calls ++ [(t, k)] }.giveBack t k (some v)) loc := by
  refine { h with returned := ?_, accounted := ?_ }
  · exact List.forall_mem_append.mpr ⟨h.returned,
      List.forall_mem_singleton.mpr fun _ => ⟨v, rfl, hexit⟩⟩
  · intro u j hne
    have hbefore := h.accounted u j hne
    show (σ.calls ++ [(t, k)]).count (u, j) =
      ((σ.returns ++ [(⟨t, k, some v⟩ : Return)]).map Return.call).count (u, j) +
        if (σ.frame u).asksFor = some j then 1 else 0
    rw [List.map_append, List.count_append, List.count_append, hbefore]
    simp only [List.map_cons, List.map_nil, Return.call]
    omega

/-- A call for the calling thread itself returns FALSE. -/
theorem Inv.refuse (h : Inv σ loc) (value : Option Long) :
    Inv (σ.giveBack (.user k) k value) loc := by
  refine { h with returned := ?_, accounted := ?_ }
  · exact List.forall_mem_append.mpr ⟨h.returned,
      List.forall_mem_singleton.mpr fun hother => absurd rfl hother⟩
  · intro u j hne
    have hother : (PUThread.user k, k) ≠ (u, j) := by
      rintro ⟨⟩
      exact hne rfl
    show σ.calls.count (u, j) =
      ((σ.returns ++ [(⟨.user k, k, value⟩ : Return)]).map Return.call).count (u, j) +
        if (σ.frame u).asksFor = some j then 1 else 0
    rw [List.map_append, List.count_append, h.accounted u j hne]
    simp [Return.call, hother]

/-- A new thread is ready. -/
theorem Inv.create (h : Inv σ loc) (st : ThreadState) (res : Long) :
    Inv (utCreate st res σ) (Function.update loc (.user σ.created) (some .ready)) := by
  have hloc : loc (.user σ.created) = none := by
    cases hplace : loc (.user σ.created) with
    | none => rfl
    | some place =>
      have hlt := ((h.alive σ.created).mp (by rw [hplace]; rfl)).1
      exact absurd hlt (Nat.lt_irrefl _)
  obtain ⟨hexit, hasked⟩ := h.unborn σ.created (Nat.le_refl _)
  obtain ⟨hfreed, -, hiff⟩ := h.unfinished σ.created hexit
  have hempty : (σ.descriptor (.user σ.created)).resWaiters = [] := by
    by_contra hne
    rw [hiff.mpr hne] at hasked
    cases hasked
  have hnotasks : (σ.frame (.user σ.created)).asksFor = none := by
    cases hasks : (σ.frame (.user σ.created)).asksFor with
    | none => rfl
    | some j =>
      rcases h.calling _ j hasks with hplace | ⟨hplace, -⟩ <;> rw [hloc] at hplace <;> cases hplace
  have hasks : ∀ u, (Function.update σ.frame (.user σ.created) .internalStart u).asksFor =
      (σ.frame u).asksFor := by
    intro u
    rcases eq_or_ne u (.user σ.created) with rfl | hu
    · rw [Function.update_self, hnotasks]
      rfl
    · rw [Function.update_of_ne hu]
  have hdescriptor : ∀ u, (Function.update σ.descriptor (.user σ.created) ⟨st, false, res, []⟩
      u).resWaiters = (σ.descriptor u).resWaiters := by
    intro u
    rcases eq_or_ne u (.user σ.created) with rfl | hu
    · rw [Function.update_self, hempty]
    · rw [Function.update_of_ne hu]
  have hwait : ∀ u j, Function.update loc (.user σ.created) (some .ready) u = some (.waiting j) ↔
      loc u = some (.waiting j) := by
    intro u j
    rcases eq_or_ne u (.user σ.created) with rfl | hu
    · simp [hloc]
    · rw [Function.update_of_ne hu]
  refine { h with
    placed := ?_, proxy := ?_, alive := ?_, counted := ?_, unborn := ?_, unfinished := ?_,
    finished := ?_, waiting := ?_, calling := ?_, idle := ?_, accounted := ?_, blocked := ?_ }
  · refine h.placed.update _ _ fun u place => ?_
    cases place with
    | running | ready =>
      rcases eq_or_ne u (.user σ.created) with rfl | hu
      · simp [occ, utCreate, utActivate, State.setDescriptor, hloc]
      · simp [occ, utCreate, utActivate, State.setDescriptor, hu, Ne.symm hu]
    | waiting j =>
      simp only [occ, utCreate, utActivate, State.setDescriptor, hdescriptor, hloc]
      simp
  · intro j hj
    have hne : PUThread.main ≠ .user σ.created := nofun
    rw [Function.update_of_ne hne] at hj
    exact h.proxy j hj
  · intro q
    show _ ↔ q < σ.created + 1 ∧ σ.exitValue q = none
    rcases eq_or_ne q σ.created with rfl | hq
    · rw [Function.update_self]
      exact ⟨fun _ => ⟨Nat.lt_succ_self _, hexit⟩, fun _ => rfl⟩
    · rw [Function.update_of_ne (fun he => hq (PUThread.user.inj he)), h.alive q]
      exact and_congr_left fun _ => ⟨Nat.lt_succ_of_lt, fun hlt => by omega⟩
  · have hmove := h.counted.move σ.created (some .ready)
    have hsame : (fun q => Function.update loc (.user σ.created) (some Place.ready) (.user q)) =
        Function.update (fun q => loc (.user q)) σ.created (some .ready) := by
      funext q
      rcases eq_or_ne q σ.created with rfl | hq
      · rw [Function.update_self, Function.update_self]
      · rw [Function.update_of_ne hq, Function.update_of_ne fun he => hq (PUThread.user.inj he)]
    rw [hsame]
    show Standing _ _ (σ.numberOfThreads + 1)
    simpa [hloc] using hmove
  · intro q hq
    exact h.unborn q (Nat.le_of_succ_le hq)
  · intro j hj
    obtain ⟨hfreed', hresult, hiff'⟩ := h.unfinished j hj
    refine ⟨hfreed', ?_, ?_⟩
    · show (Function.update σ.descriptor _ _ (.user j)).hasResult = false
      rcases eq_or_ne (PUThread.user j) (.user σ.created) with he | hne
      · rw [he, Function.update_self]
      · rw [Function.update_of_ne hne]
        exact hresult
    · show σ.asked j = true ↔ (Function.update σ.descriptor _ _ (.user j)).resWaiters ≠ []
      rw [hdescriptor]
      exact hiff'
  · intro j v hj
    have hne : PUThread.user j ≠ .user σ.created := by
      rintro ⟨⟩
      rw [show σ.exitValue σ.created = some v from hj] at hexit
      cases hexit
    show (Function.update σ.descriptor _ _ (.user j)).resWaiters = [] ∧ σ.freed j = σ.asked j ∧
      (σ.asked j = false → (Function.update σ.descriptor _ _ (.user j)).hasResult = true ∧
        (Function.update σ.descriptor _ _ (.user j)).res = v)
    rw [Function.update_of_ne hne]
    exact h.finished j v hj
  · intro u j hj
    rw [show ((utCreate st res σ).frame u).asksFor = (σ.frame u).asksFor from hasks u]
    exact h.waiting u j ((hwait u j).mp hj)
  · intro u j hj
    rw [show ((utCreate st res σ).frame u).asksFor = (σ.frame u).asksFor from hasks u] at hj
    have hu : u ≠ .user σ.created := by
      rintro rfl
      rw [hnotasks] at hj
      cases hj
    rw [Function.update_of_ne hu]
    exact h.calling u j hj
  · intro hm u
    rw [show ((utCreate st res σ).frame u).asksFor = (σ.frame u).asksFor from hasks u]
    exact h.idle hm u
  · intro u j hne
    rw [show ((utCreate st res σ).frame u).asksFor = (σ.frame u).asksFor from hasks u]
    exact h.accounted u j hne
  · intro u j
    simp only [hwait]
    exact h.blocked u j

end Calls

section Exit

variable {σ : State} {loc : PUThread → Option Place} {p : ℕ} {res : Long}

/-- The loop of `UtExit` empties the list: it gives everybody in it the value and
makes them ready, in order. -/
theorem serveWaiters_eq (waiters : List PUThread) :
    ∀ σ : State, (σ.descriptor (.user p)).resWaiters = waiters →
      serveWaiters p res waiters σ =
        { σ.setDescriptor (.user p) { σ.descriptor (.user p) with resWaiters := [] } with
          readyQueue := σ.readyQueue ++ waiters
          result := fun t => if t ∈ waiters then res else σ.result t
          activations := fun t k => σ.activations t k + if k = p then waiters.count t else 0 } := by
  induction waiters with
  | nil =>
    intro σ hw
    have hsame : Function.update σ.descriptor (.user p)
        { σ.descriptor (.user p) with resWaiters := [] } = σ.descriptor := by
      rw [← hw]
      exact Function.update_eq_self _ _
    simp [serveWaiters, State.setDescriptor, hsame]
  | cons t rest ih =>
    intro σ hw
    rw [serveWaiters, ih _ (by simp [utActivate, State.setDescriptor])]
    simp only [utActivate, State.setDescriptor, Function.update_idem, Function.update_self,
      List.append_assoc, List.singleton_append, State.mk.injEq, true_and, and_true]
    refine ⟨?_, ?_⟩
    · funext u
      rcases eq_or_ne u t with rfl | hu
      · simp
      · simp [hu]
    · funext u k
      rcases eq_or_ne u t with rfl | hu
      · rcases eq_or_ne k p with rfl | hk
        · simp only [Function.update_self, if_true, List.count_cons_self]
          omega
        · simp [hk]
      · simp [hu, Ne.symm hu]

/-- Nobody is linked in the descriptor of a thread that does not run any more but
those who ask for its value. -/
theorem Inv.mem_waiters (h : Inv σ loc) (t : PUThread) (k : ℕ) :
    t ∈ (σ.descriptor (.user k)).resWaiters ↔ loc t = some (.waiting k) := by
  rw [← h.placed.pos_iff]
  exact List.count_pos_iff.symm

/-- The places after the exit of a thread. -/
def exitPlaces (loc : PUThread → Option Place) (p : ℕ) : PUThread → Option Place :=
  Function.update (fun t => if loc t = some (.waiting p) then some .ready else loc t) (.user p) none

theorem exitPlaces_of_ne {t : PUThread} (ht : t ≠ .user p) :
    exitPlaces loc p t = if loc t = some (.waiting p) then some .ready else loc t :=
  Function.update_of_ne ht _ _

/-- Everybody else is as alive as before. -/
theorem isSome_exitPlaces {t : PUThread} (ht : t ≠ .user p) :
    (exitPlaces loc p t).isSome = (loc t).isSome := by
  rw [exitPlaces_of_ne ht]
  split
  · next hw =>
    rw [hw]
    rfl
  · rfl

/-- The exit with what it leaves in the descriptor, before the switch. -/
def exited (p : ℕ) (res : Long) (σ : State) : State := cleanupThread p (parked (leaveResult p res σ))

/-- `UtExit` ends with the switch. -/
theorem utExit_eq (p : ℕ) (res : Long) (σ : State) : utExit p res σ = switch (exited p res σ) := by
  unfold utExit exited ThreadResults.switch cleanupThread
  generalize leaveResult p res σ = τ
  unfold extractNextReadyThread
  cases hres : (τ.descriptor (.user p)).hasResult <;>
    obtain ⟨_ | ⟨u, rest⟩, r, _ | m⟩ := τ <;>
    simp only [parked] at hres ⊢ <;>
    simp only [hres, if_true, if_false, Bool.false_eq_true] <;>
    rfl

/-- What the exit changes: the descriptor stays, with the value, when nobody waits,
and is freed otherwise. -/
theorem exited_eq (res : Long) (h : Inv σ loc) (hexit : σ.exitValue p = none) :
    ∃ d : Descriptor, d.resWaiters = [] ∧
      ((σ.descriptor (.user p)).resWaiters = [] → d.hasResult = true ∧ d.res = res) ∧
      exited p res σ =
        { parked (σ.setDescriptor (.user p) d) with
          numberOfThreads := σ.numberOfThreads - 1
          exitValue := Function.update σ.exitValue p (some res)
          freed := Function.update σ.freed p !(σ.descriptor (.user p)).resWaiters.isEmpty
          readyQueue := σ.readyQueue ++ (σ.descriptor (.user p)).resWaiters
          result := fun t => if t ∈ (σ.descriptor (.user p)).resWaiters then res else σ.result t
          activations := fun t k => σ.activations t k +
            if k = p then (σ.descriptor (.user p)).resWaiters.count t else 0 } := by
  obtain ⟨hfreed, hresult, -⟩ := h.unfinished p hexit
  unfold exited leaveResult
  dsimp only
  split
  · next hw =>
    have hsame : Function.update σ.freed p false = σ.freed := by
      rw [← hfreed]
      exact Function.update_eq_self _ _
    refine ⟨{ σ.descriptor (.user p) with hasResult := true, res := res }, hw, fun _ => ⟨rfl, rfl⟩, ?_⟩
    simp [cleanupThread, parked, State.setDescriptor, hw, hsame]
  · next hw =>
    have hserve : serveWaiters p res (σ.descriptor (.user p)).resWaiters
        { σ with
          numberOfThreads := σ.numberOfThreads - 1
          exitValue := Function.update σ.exitValue p (some res) } = _ := serveWaiters_eq _ _ rfl
    rw [hserve]
    refine ⟨{ σ.descriptor (.user p) with resWaiters := [] }, rfl, fun he => absurd he hw, ?_⟩
    have hsome : (σ.descriptor (.user p)).resWaiters.isEmpty = false :=
      List.isEmpty_eq_false_iff.mpr hw
    simp [cleanupThread, parked, State.setDescriptor, State.free, hresult, hsome]

/-- A thread exits: it leaves its value to those that wait, or in its descriptor. -/
theorem Inv.exit (h : Inv σ loc) (hr : σ.runningThread = some (.user p)) :
    Inv (exited p res σ) (exitPlaces loc p) := by
  have hloc := h.running hr
  have hf := h.not_calling hloc
  obtain ⟨hcreated, hexit⟩ := (h.alive p).mp (by rw [hloc]; rfl)
  obtain ⟨hfreed, hresult, hiff⟩ := h.unfinished p hexit
  have hmem := h.mem_waiters
  obtain ⟨d, hempty, hkept, heq⟩ := exited_eq res h hexit
  have hdescriptor : ∀ k, k ≠ p → Function.update σ.descriptor (.user p) d (.user k) =
      σ.descriptor (.user k) :=
    fun k hk => Function.update_of_ne (fun he => hk (PUThread.user.inj he)) _ _
  have hwait : ∀ t k, exitPlaces loc p t = some (.waiting k) ↔
      loc t = some (.waiting k) ∧ k ≠ p := by
    intro t k
    rcases eq_or_ne t (.user p) with rfl | ht
    · simp [exitPlaces, hloc]
    · rw [exitPlaces_of_ne ht]
      split
      · next hw => simp [hw, eq_comm]
      · next hw => exact ⟨fun he => ⟨he, fun hk => hw (hk ▸ he)⟩, And.left⟩
  rw [heq]
  refine { h with
    placed := ?_, proxy := ?_, inside := fun hne => absurd rfl hne, alive := ?_, counted := ?_,
    unborn := ?_, unfinished := ?_, finished := ?_, waiting := ?_, calling := ?_, returned := ?_,
    blocked := ?_, activated := ?_ }
  · intro t place
    rcases eq_or_ne t (.user p) with rfl | ht
    · have hnot : PUThread.user p ∉ (σ.descriptor (.user p)).resWaiters := by
        rw [hmem, hloc]
        nofun
      have hready := h.placed (.user p) .ready
      rw [hloc] at hready
      cases place with
      | running => simp [occ, parked, exitPlaces]
      | ready =>
        simp only [occ, List.count_append, List.count_eq_zero_of_not_mem hnot, exitPlaces,
          Function.update_self]
        exact hready
      | waiting k =>
        have hcount := h.placed (.user p) (.waiting k)
        rw [hloc] at hcount
        show (Function.update σ.descriptor (.user p) d (.user k)).resWaiters.count _ = _
        rcases eq_or_ne k p with rfl | hk
        · simp [hempty, exitPlaces]
        · rw [hdescriptor k hk, exitPlaces, Function.update_self]
          exact hcount
    · rw [exitPlaces_of_ne ht]
      cases place with
      | running =>
        have hrunning : loc t ≠ some .running := by
          intro hplace
          rw [← h.placed.pos_iff] at hplace
          simp [occ, hr, Ne.symm ht] at hplace
        have hnot : (if loc t = some (.waiting p) then some .ready else loc t) ≠ some .running := by
          split
          · nofun
          · exact hrunning
        rw [if_neg hnot]
        rfl
      | ready =>
        have hready := h.placed t .ready
        have hwaits := h.placed t (.waiting p)
        show (σ.readyQueue ++ (σ.descriptor (.user p)).resWaiters).count t = _
        rw [List.count_append]
        by_cases hw : loc t = some (.waiting p)
        · rw [if_pos hw] at hwaits
          rw [if_neg (by rw [hw]; nofun)] at hready
          rw [if_pos hw, if_pos rfl]
          show occ σ t .ready + occ σ t (.waiting p) = 1
          rw [hready, hwaits]
        · rw [if_neg hw] at hwaits
          rw [if_neg hw]
          show occ σ t .ready + occ σ t (.waiting p) = _
          rw [hready, hwaits, Nat.add_zero]
      | waiting k =>
        have hcount := h.placed t (.waiting k)
        have hsame := hwait t k
        rw [exitPlaces_of_ne ht] at hsame
        show (Function.update σ.descriptor (.user p) d (.user k)).resWaiters.count t = _
        simp only [hsame]
        rcases eq_or_ne k p with rfl | hk
        · simp [hempty]
        · rw [hdescriptor k hk]
          simp only [hk, ne_eq, not_false_eq_true, and_true]
          exact hcount
  · intro place hplace
    have hne : PUThread.main ≠ .user p := nofun
    rw [exitPlaces_of_ne hne] at hplace
    split at hplace
    · next hw =>
      have hrunning := h.proxy _ hw
      cases hrunning
    · exact h.proxy place hplace
  · intro q
    show _ ↔ q < σ.created ∧ Function.update σ.exitValue p (some res) q = none
    rcases eq_or_ne q p with rfl | hq
    · rw [Function.update_self, exitPlaces, Function.update_self]
      exact ⟨nofun, fun hand => nomatch hand.2⟩
    · rw [isSome_exitPlaces (fun he => hq (PUThread.user.inj he)), Function.update_of_ne hq]
      exact h.alive q
  · have hsome : (loc (.user p)).isSome := by rw [hloc]; rfl
    have hleave := h.counted.leave (p := p) (q := none) hsome nofun
    refine hleave.congr fun q => ?_
    rcases eq_or_ne q p with rfl | hq
    · rw [Function.update_self, exitPlaces, Function.update_self]
    · rw [isSome_exitPlaces (fun he => hq (PUThread.user.inj he)), Function.update_of_ne hq]
  · intro q hq
    obtain ⟨hnone, hasked⟩ := h.unborn q hq
    have hne : q ≠ p := fun he => absurd hcreated (Nat.not_lt.mpr (he ▸ hq))
    refine ⟨?_, hasked⟩
    show Function.update σ.exitValue p (some res) q = none
    rw [Function.update_of_ne hne]
    exact hnone
  · intro k hk
    replace hk : Function.update σ.exitValue p (some res) k = none := hk
    have hne : k ≠ p := by
      rintro rfl
      rw [Function.update_self] at hk
      cases hk
    rw [Function.update_of_ne hne] at hk
    show Function.update σ.freed p _ k = false ∧
      (Function.update σ.descriptor (.user p) d (.user k)).hasResult = false ∧
        (σ.asked k = true ↔ (Function.update σ.descriptor (.user p) d (.user k)).resWaiters ≠ [])
    rw [Function.update_of_ne hne, hdescriptor k hne]
    exact h.unfinished k hk
  · intro k v hk
    replace hk : Function.update σ.exitValue p (some res) k = some v := hk
    show (Function.update σ.descriptor (.user p) d (.user k)).resWaiters = [] ∧
      Function.update σ.freed p _ k = σ.asked k ∧ (σ.asked k = false →
        (Function.update σ.descriptor (.user p) d (.user k)).hasResult = true ∧
        (Function.update σ.descriptor (.user p) d (.user k)).res = v)
    rcases eq_or_ne k p with rfl | hne
    · rw [Function.update_self] at hk
      rw [Function.update_self, Function.update_self]
      cases hk
      refine ⟨hempty, ?_, fun hasked => hkept ?_⟩
      · cases hasked : σ.asked k with
        | true => simp [hiff.mp hasked]
        | false =>
          have hnone := mt hiff.mpr (by rw [hasked]; nofun)
          simp [not_not.mp hnone]
      · have hnone := mt hiff.mpr (by rw [hasked]; nofun)
        exact not_not.mp hnone
    · rw [Function.update_of_ne hne] at hk
      rw [Function.update_of_ne hne, hdescriptor k hne]
      exact h.finished k v hk
  · intro t k hk
    exact h.waiting t k ((hwait t k).mp hk).1
  · intro t k hk
    have hasks : (σ.frame t).asksFor = some k := hk
    have ht : t ≠ .user p := by
      rintro rfl
      rw [hf] at hasks
      cases hasks
    show exitPlaces loc p t = _ ∨ exitPlaces loc p t = _ ∧
      Function.update σ.exitValue p (some res) k =
        some (if t ∈ (σ.descriptor (.user p)).resWaiters then res else σ.result t)
    rw [exitPlaces_of_ne ht]
    rcases h.calling t k hasks with hplace | ⟨hplace, hvalue⟩
    · rcases eq_or_ne k p with rfl | hne
      · rw [if_pos hplace, Function.update_self, if_pos ((hmem t k).mpr hplace)]
        exact .inr ⟨rfl, rfl⟩
      · rw [if_neg (by rw [hplace]; simpa using hne)]
        exact .inl hplace
    · have hnot : loc t ≠ some (.waiting p) := by rw [hplace]; nofun
      have hne : k ≠ p := by
        rintro rfl
        rw [hexit] at hvalue
        cases hvalue
      rw [if_neg hnot, if_neg (mt (hmem t p).mp hnot), Function.update_of_ne hne]
      exact .inr ⟨hplace, hvalue⟩
  · intro r hr hother
    obtain ⟨v, hv, hvalue⟩ := h.returned r hr hother
    refine ⟨v, hv, ?_⟩
    show Function.update σ.exitValue p (some res) r.handle = some v
    have hne : r.handle ≠ p := by
      rintro he
      rw [he, hexit] at hvalue
      cases hvalue
    rw [Function.update_of_ne hne]
    exact hvalue
  · intro t k
    have hbefore := h.blocked t k
    have hcount := h.placed t (.waiting k)
    show σ.blocks t k = _ + (σ.activations t k +
      if k = p then (σ.descriptor (.user p)).resWaiters.count t else 0)
    simp only [hwait]
    rcases eq_or_ne k p with rfl | hne
    · rw [if_neg (fun hand => hand.2 rfl), if_pos rfl, hbefore, ← hcount]
      show occ σ t (.waiting k) + σ.activations t k = 0 + (σ.activations t k + occ σ t (.waiting k))
      omega
    · simp only [hne, ne_eq, not_false_eq_true, and_true, if_false, Nat.add_zero]
      exact hbefore
  · intro t k
    obtain ⟨hle, hzero⟩ := h.activated t k
    show σ.activations t k + (if k = p then (σ.descriptor (.user p)).resWaiters.count t else 0) ≤ 1 ∧
      (Function.update σ.exitValue p (some res) k = none →
        σ.activations t k + (if k = p then (σ.descriptor (.user p)).resWaiters.count t else 0) = 0)
    rcases eq_or_ne k p with rfl | hne
    · rw [Function.update_self, if_pos rfl, hzero hexit, Nat.zero_add]
      exact ⟨h.placed.le_one t (.waiting k), nofun⟩
    · rw [Function.update_of_ne hne, if_neg hne]
      exact ⟨hle, hzero⟩

end Exit

/-- Entering `UtRun` parks the main thread. -/
theorem Inv.enterRun {σ : State} {loc : PUThread → Option Place} (h : Inv σ loc)
    (hr : σ.runningThread = none) : Inv { σ with mainThread := some .main } loc :=
  { h with inside := fun hne => absurd hr hne, idle := fun hnone => nomatch hnone }

/-- When `UtRun` returns, every thread has exited and every call has returned. -/
theorem Inv.leaveRun {σ : State} {loc : PUThread → Option Place} (h : Inv σ loc)
    (hr : σ.runningThread = some .main) (hnumber : σ.numberOfThreads = 0) :
    Inv { σ with runningThread := none, mainThread := none } (fun _ => none) := by
  have hcounted := h.counted
  rw [hnumber] at hcounted
  have hgone : ∀ p, loc (.user p) = none := by
    intro p
    cases hplace : loc (.user p) with
    | none => rfl
    | some place => exact absurd (by rw [hplace]; rfl) (hcounted.zero p)
  have hmain := h.running hr
  have hwait : ∀ t k, loc t ≠ some (.waiting k) := by
    intro t k hplace
    cases t with
    | main =>
      rw [hmain] at hplace
      cases hplace
    | user p =>
      rw [hgone p] at hplace
      cases hplace
  have hidle : ∀ t, (σ.frame t).asksFor = none := by
    intro t
    cases hasks : (σ.frame t).asksFor with
    | none => rfl
    | some k =>
      rcases h.calling t k hasks with hplace | ⟨hplace, -⟩
      · exact absurd hplace (hwait t k)
      · cases t with
        | main =>
          rw [hmain] at hplace
          cases hplace
        | user p =>
          rw [hgone p] at hplace
          cases hplace
  refine { h with
    placed := ?_, proxy := fun k hk => (nomatch hk), inside := fun hne => absurd rfl hne,
    alive := ?_, counted := ?_, waiting := fun t k hk => (nomatch hk), calling := ?_,
    idle := fun _ => hidle, blocked := ?_ }
  · intro t place
    have hcount := h.placed t place
    cases place with
    | running => simp [occ]
    | ready | waiting =>
      cases t with
      | main =>
        rw [hmain] at hcount
        exact hcount
      | user p =>
        rw [hgone p] at hcount
        exact hcount
  · intro p
    rw [← h.alive p, hgone p]
  · exact h.counted.congr fun p => by rw [hgone p]
  · intro t k hk
    have hnone := hidle t
    rw [show (σ.frame t).asksFor = some k from hk] at hnone
    cases hnone
  · intro t k
    have hbefore := h.blocked t k
    rw [if_neg (hwait t k)] at hbefore
    rw [if_neg (by nofun)]
    exact hbefore

section Steps

variable {σ σ' : State} {loc : PUThread → Option Place} {k : ℕ}

/-- The main thread is never inside a call. -/
theorem Inv.main_not_calling (h : Inv σ loc) : (σ.frame .main).asksFor = none := by
  cases hasks : (σ.frame .main).asksFor with
  | none => rfl
  | some k =>
    rcases h.calling .main k hasks with hplace | ⟨hplace, -⟩
    · have hrunning := h.proxy _ hplace
      cases hrunning
    · have hrunning := h.proxy _ hplace
      cases hrunning

/-- A descriptor whose thread has exited is freed exactly when somebody asked. -/
theorem Inv.freed_iff (h : Inv σ loc) (k : ℕ) :
    σ.freed k = true ↔ σ.exitValue k ≠ none ∧ σ.asked k = true := by
  cases hexit : σ.exitValue k with
  | none => simp [(h.unfinished k hexit).1]
  | some v => simp [(h.finished k v hexit).2.1]

/-- A descriptor is there as long as nobody has asked for the value of a thread that has exited. -/
theorem Inv.not_freed_iff (h : Inv σ loc) (k : ℕ) :
    σ.freed k = false ↔ (σ.exitValue k ≠ none → σ.asked k = false) := by
  rw [← Bool.not_eq_true, h.freed_iff, not_and, Bool.not_eq_true]

/-- A descriptor that is there has the value exactly when its thread has exited. -/
theorem Inv.hasResult_iff (h : Inv σ loc) (hfreed : σ.freed k = false) :
    (σ.descriptor (.user k)).hasResult = true ↔
      σ.exitValue k = some (σ.descriptor (.user k)).res := by
  cases hexit : σ.exitValue k with
  | none => simp [(h.unfinished k hexit).2.1]
  | some v =>
    obtain ⟨-, hasked, hvalue⟩ := h.finished k v hexit
    obtain ⟨hresult, hres⟩ := hvalue (hasked ▸ hfreed)
    simp [hresult, hres]

/-- A request in time keeps every call served. -/
theorem Inv.getResult (h : Inv σ loc) (hmain : σ.runningThread ≠ some .main) (hk : k < σ.created)
    (htime : InTime σ (.getResult k)) (hget : utGetThreadResult k σ = some σ') :
    ∃ loc', Inv σ' loc' := by
  unfold utGetThreadResult at hget
  dsimp only at hget
  split at hget
  · next hself =>
    cases hget
    rw [hself]
    exact ⟨loc, h.refuse none⟩
  · next hother =>
    have hself : σ.runningThread ≠ some (.user k) := by
      intro he
      rw [he] at hother
      exact hother rfl
    have hfreed : σ.freed k = false := (h.not_freed_iff k).mpr (htime hself)
    rw [if_neg (by rw [hfreed]; nofun)] at hget
    unfold takeResult at hget
    by_cases hresult : (σ.descriptor (.user k)).hasResult = true
    · have hexit := (h.hasResult_iff hfreed).mp hresult
      rw [if_pos hresult] at hget
      cases hget
      exact ⟨loc, (h.take hexit).giveBack hexit⟩
    · have hexit : σ.exitValue k = none := by
        cases hexit : σ.exitValue k with
        | none => rfl
        | some v =>
          obtain ⟨-, hasked, hvalue⟩ := h.finished k v hexit
          exact absurd (hvalue (hasked ▸ hfreed)).1 hresult
      rw [if_neg hresult] at hget
      dsimp only at hget
      cases hr : σ.runningThread with
      | none =>
        simp only [schedule, linkWaiter, State.setDescriptor, hr] at hget
        cases hget
      | some t =>
        cases t with
        | main => exact absurd hr hmain
        | user p =>
          have hcaller : σ.runningThread.getD .main = .user p := by rw [hr]; rfl
          rw [hcaller] at hget
          obtain ⟨f, ⟨next, rfl⟩, hschedule⟩ := schedule_eq (linkWaiter (.user p) k
            { σ with calls := σ.calls ++ [(.user p, k)] }) (.utGetThreadResult k) hr
          have hsome := hschedule.symm.trans hget
          cases hsome
          have hm := h.inside (by rw [hr]; nofun)
          exact ((h.block hr hk hexit next).writeState (.user p) .ready).switch rfl hm

/-- One step in time keeps every call served. -/
theorem Inv.step {c : Command} (h : Inv σ loc) (hstep : next σ c = some σ') (htime : InTime σ c) :
    ∃ loc', Inv σ' loc' := by
  cases c with
  | enterRun =>
    simp only [next, utRun] at hstep
    split at hstep
    · next hr =>
      split at hstep
      · cases hstep
        exact ⟨loc, h⟩
      · obtain ⟨f, ⟨n, rfl⟩, hschedule⟩ := schedule_eq (t := .main)
          { σ with mainThread := some .main, runningThread := some .main } .utRun rfl
        have hsome := hschedule.symm.trans hstep
        cases hsome
        have hparked := ((h.enterRun hr).setFrame (f := .utRun n)
          h.main_not_calling.symm).writeState .main .ready
        rw [show ({ σ with mainThread := some .main } : State) =
          { σ with mainThread := some .main, runningThread := none } by rw [← hr]] at hparked
        exact hparked.switch rfl rfl
    · cases hstep
  | leaveRun =>
    simp only [next, utRunReturn] at hstep
    split at hstep
    · next hr =>
      split at hstep
      · next hend =>
        cases hstep
        exact ⟨_, h.leaveRun hr hend.2⟩
      · cases hstep
    · cases hstep
  | create st res =>
    simp only [next] at hstep
    split at hstep
    · cases hstep
    · cases hstep
      exact ⟨_, h.create st res⟩
  | yield =>
    simp only [next] at hstep
    split at hstep
    · next p hr =>
      unfold utYield at hstep
      rw [hr] at hstep
      split at hstep
      · cases hstep
        exact ⟨loc, h⟩
      · next hnone => cases hnone
      · next u rest current hq hcurrent =>
        cases hcurrent
        obtain ⟨f, ⟨n, rfl⟩, hschedule⟩ := schedule_eq (utActivate (.user p) σ) .utYield hr
        have hsome := hschedule.symm.trans hstep
        cases hsome
        have hf := h.not_calling (h.running hr)
        have hm := h.inside (by rw [hr]; nofun)
        exact (((h.yield hr).setFrame (f := .utYield n) hf.symm).writeState (.user p) .ready).switch
          rfl hm
    · cases hstep
  | exit res =>
    simp only [next] at hstep
    split at hstep
    · next p hr =>
      cases hstep
      have hm := h.inside (by rw [hr]; nofun)
      have hexit := (h.alive p).mp (by rw [h.running hr]; rfl)
      rw [utExit_eq]
      obtain ⟨d, -, -, heq⟩ := exited_eq res h hexit.2
      have hnone : (exited p res σ).runningThread = none := by rw [heq]; rfl
      have hmain : (exited p res σ).mainThread = some .main := by rw [heq]; exact hm
      exact (h.exit hr).switch hnone hmain
    · cases hstep
  | getResult k =>
    simp only [next] at hstep
    split at hstep
    · cases hstep
    · next hok =>
      push Not at hok
      exact h.getResult hok.1 hok.2 htime hstep
  | tryGetResult k =>
    simp only [next, utTryGetThreadResult] at hstep
    split at hstep
    · cases hstep
    · split at hstep
      · cases hstep
        exact ⟨loc, h⟩
      · next hself =>
        split at hstep
        · next hfreed => cases hfreed.symm.trans ((h.not_freed_iff k).mpr (htime hself))
        · next hfreed =>
          cases hstep
          unfold takeResult
          split
          · next hresult =>
            exact ⟨loc, h.take ((h.hasResult_iff (Bool.eq_false_of_not_eq_true hfreed)).mp hresult)⟩
          · exact ⟨loc, h⟩

/-- A request that is not in time reads a freed descriptor. -/
theorem Inv.inTime {c : Command} (h : Inv σ loc) (hstep : next σ c = some σ') (hserved : Served σ') :
    InTime σ c := by
  have hread : ∀ (τ : State) j, τ.readFreed j = σ' → False := by
    rintro τ j rfl
    have hreads := hserved.reads
    exact absurd hreads (List.append_ne_nil_of_right_ne_nil _ (List.cons_ne_nil j []))
  unfold InTime
  split
  · next j =>
    intro hself
    refine (h.not_freed_iff j).mp ?_
    by_contra hkept
    have hfreed := Bool.eq_true_of_not_eq_false hkept
    simp only [next] at hstep
    split at hstep
    · cases hstep
    · have hcaller : σ.runningThread.getD .main ≠ .user j := by
        cases hr : σ.runningThread with
        | none => nofun
        | some t => exact fun he => hself (by rw [hr, ← he]; rfl)
      simp only [utGetThreadResult, if_neg hcaller, hfreed, if_true, Option.some.injEq] at hstep
      exact hread _ _ hstep
  · next j =>
    intro hself
    refine (h.not_freed_iff j).mp ?_
    by_contra hkept
    have hfreed := Bool.eq_true_of_not_eq_false hkept
    simp only [next] at hstep
    split at hstep
    · cases hstep
    · simp only [utTryGetThreadResult, if_neg hself, hfreed, if_true, Option.some.injEq] at hstep
      exact hread _ _ hstep
  · trivial

end Steps

/-- Before any thread is created nobody asks for anything. -/
theorem inv_initial : Inv initial fun _ => none where
  placed t place := by cases place <;> rfl
  proxy _ hk := nomatch hk
  inside hne := absurd rfl hne
  alive p := ⟨nofun, fun hand => absurd hand.1 (Nat.not_lt_zero p)⟩
  counted := .none fun _ => nofun
  unborn _ _ := ⟨rfl, rfl⟩
  unfinished _ _ := ⟨rfl, rfl, nofun, fun hne => absurd rfl hne⟩
  finished _ _ hv := nomatch hv
  waiting _ _ hk := nomatch hk
  calling _ _ hk := nomatch hk
  idle _ _ := rfl
  returned _ hr := nomatch hr
  accounted _ _ _ := rfl
  blocked _ _ := rfl
  activated _ _ := ⟨Nat.zero_le 1, fun _ => rfl⟩
  reads := rfl

end SistemasOperativos.ThreadResults
