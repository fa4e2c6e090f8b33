import SistemasOperativos.PgrepStreams

/-!
# The threads of the search program

The descriptors are those of the threads that were created and have not left,
and `main` creates them, waits in `ut_run` and returns as the library says.
-/

namespace SistemasOperativos.Pgrep

open TransitionRuns UThread UThreadConservation UThreadQueue
open ByteMemory (Byte)

/-- The threads that are not created yet. -/
def MainPc.left : MainPc → List Thread
  | .creating left => left
  | .running | .returned => []

/-- The thread has called `ut_exit`. -/
def State.Exited (s : State) : Thread → Prop
  | .reader => s.reader = .exited
  | .filter => s.filter = .exited
  | .presenter => s.presenter = .exited

/-- The threads of the library are those of the program, and the main thread
stands where it should. -/
structure Threads (s : State) : Prop where
  alive : ∀ b, b ∈ s.queues.lib.descriptors ↔
    ∃ th : Thread, th.block = b ∧ th ∉ s.main.left ∧ ¬ s.Exited th
  creating : ∀ left, s.main = .creating left → s.queues.lib.runningThread = none ∧
    (∀ th, ¬ s.Exited th) ∧ ∃ created, created ++ left = [.reader, .filter, .presenter] ∧
      s.queues.lib.readyQueue = created.map Thread.handle
  running : s.main = .running → s.queues.lib.runningThread ≠ none
  returned : s.main = .returned → s.queues.lib.runningThread = none ∧
    s.queues.lib.readyQueue = [] ∧ s.queues.lib.numberOfThreads = 0

section Steps

variable {file : Option (List Chunk)} {word : List Byte} {s t : State}

/-- The threads have different blocks. -/
theorem block_injective {a b : Thread} (h : a.block = b.block) : a = b := by
  by_contra hne
  exact handle_ne hne (congrArg PUThread.user h)

/-- A switch inside `ut_run` finds a thread to run. -/
theorem extract_ne_none {σ : UThread.State (QSem Queue Empty) Empty}
    (hmain : σ.mainThread = some .main) : (extractNextThread σ).1 ≠ none := by
  rw [extractNextThread_fst, hmain]
  cases σ.readyQueue.head? with
  | none => exact Option.some_ne_none _
  | some u => exact Option.some_ne_none _

/-- `sem_wait` keeps the threads, and leaves one running. -/
theorem semWait_spec {σ : UThread.State (QSem Queue Empty) Empty} {b : ℕ}
    (hr : σ.runningThread = some (.user b)) (hmain : σ.mainThread = some .main)
    (q : QSem Queue Empty) : (semWait q 1 σ).descriptors = σ.descriptors ∧
      (semWait q 1 σ).runningThread ≠ none := by
  simp only [semWait, hr]
  split
  · refine ⟨rfl, ?_⟩
    change σ.runningThread ≠ none
    rw [hr]
    exact Option.some_ne_none _
  · rw [utDeactivate]
    obtain ⟨-, hrunning, -, -, hdescriptors, -, -, -⟩ := schedule_fields (record (.blocked q (.user b) 1)
      (setSem q { σ.sems q with waiters := (σ.sems q).waiters ++ [⟨.user b, 1⟩] }
        (record (.called q (.user b) 1) σ))) (.semWait q 1)
    rw [hdescriptors, hrunning]
    exact ⟨rfl, extract_ne_none hmain⟩

/-- While some thread runs, `main` is in `ut_run`. -/
theorem Threads.main_running (h : Threads s) {p : PUThread}
    (hr : s.queues.lib.runningThread = some p) : s.main = .running := by
  cases hmain : s.main with
  | creating left => cases hr.symm.trans (h.creating left hmain).1
  | running => rfl
  | returned => cases hr.symm.trans (h.returned hmain).1

/-- A step of a thread that neither leaves nor creates one. -/
theorem Threads.kept (h : Threads s) {b : ℕ}
    (hr : s.queues.lib.runningThread = some (.user b)) (hmain : t.main = s.main)
    (hdescriptors : t.queues.lib.descriptors = s.queues.lib.descriptors)
    (hrunning : t.queues.lib.runningThread ≠ none) (hexited : ∀ th, t.Exited th ↔ s.Exited th) :
    Threads t := by
  have hrun := h.main_running hr
  rw [hrun] at hmain
  refine ⟨fun b' => ?_, fun left he => ?_, fun _ => hrunning, fun he => ?_⟩
  · rw [hdescriptors, h.alive, hmain, hrun]
    simp only [hexited]
  · cases hmain.symm.trans he
  · cases hmain.symm.trans he

/-- `queue_get` removes an item and wakes a thread. -/
theorem queueGetRest_lib {x : QState Queue Empty (Option Chunk)} {q : Queue} {p : PUThread}
    {line : Option Chunk} {rest : List (Option Chunk)} (hlist : x.list q = line :: rest) :
    (queueGetRest q p x).lib = semPost (.hasSpace q) 1 x.lib := by
  simp only [queueGetRest, hlist]

/-- Every step keeps the threads in order. -/
theorem Threads.next (h : Threads s) (hinside : s.queues.lib.runningThread ≠ none →
    s.queues.lib.mainThread = some .main) (hnodup : s.queues.lib.descriptors.Nodup)
    (hmove : Moves file word s t) : Threads t := by
  have hstays {b : ℕ} (hr : s.queues.lib.runningThread = some (.user b)) :
      s.queues.lib.runningThread ≠ none := by
    rw [hr]
    exact Option.some_ne_none _
  have hpost {b : ℕ} (hr : s.queues.lib.runningThread = some (.user b)) (q : QSem Queue Empty) :
      (semPost q 1 s.queues.lib).descriptors = s.queues.lib.descriptors ∧
        (semPost q 1 s.queues.lib).runningThread ≠ none := by
    obtain ⟨hrunning, -, hdescriptors, -, -, -⟩ := semPost_fields s.queues.lib q 1
    exact ⟨hdescriptors, hrunning ▸ hstays hr⟩
  have hremoved {b : ℕ} (hr : s.queues.lib.runningThread = some (.user b)) {q : Queue}
      {p : PUThread} {line : Option Chunk} {rest : List (Option Chunk)}
      (hlist : s.queues.list q = line :: rest) :
      (queueGetRest q p s.queues).lib.descriptors = s.queues.lib.descriptors ∧
        (queueGetRest q p s.queues).lib.runningThread ≠ none := by
    rw [queueGetRest_lib hlist]
    exact hpost hr (.hasSpace q)
  cases hmove with
  | created th left lib hmain hlib =>
    obtain ⟨hr, hb, rfl⟩ := next_create hlib
    obtain ⟨-, hnone, created, hall, hready⟩ := h.creating _ hmain
    have hdistinct : (created ++ th :: left).Nodup := by
      rw [hall]
      decide
    have hfresh : th ∉ left := (List.nodup_cons.mp (List.nodup_append.mp hdistinct).2.1).1
    refine ⟨fun b => ?_, fun left' he => ?_, (fun he => by cases he),
      (fun he => by cases he)⟩
    · change b ∈ th.block :: s.queues.lib.descriptors ↔ _
      rw [List.mem_cons, h.alive, hmain]
      constructor
      · rintro (rfl | ⟨th', rfl, hleft, hexited⟩)
        · exact ⟨th, rfl, hfresh, hnone th⟩
        · exact ⟨th', rfl, fun hmem => hleft (List.mem_cons_of_mem th hmem), hexited⟩
      · rintro ⟨th', rfl, hleft, hexited⟩
        rcases eq_or_ne th' th with rfl | hne
        · exact .inl rfl
        · exact .inr ⟨th', rfl, fun hmem => (List.mem_cons.mp hmem).elim hne hleft, hexited⟩
    · cases he
      refine ⟨hr, hnone, created ++ [th], ?_, ?_⟩
      · rw [List.append_assoc]
        exact hall
      · change s.queues.lib.readyQueue ++ [th.handle] = _
        rw [hready, List.map_append]
        rfl
  | entered lib hmain hlib =>
    obtain ⟨hr, -, created, hall, hready⟩ := h.creating _ hmain
    rw [List.append_nil] at hall
    have hsome : s.queues.lib.readyQueue ≠ [] := by
      rw [hready, hall]
      exact List.cons_ne_nil _ _
    simp only [UThread.next, utRun, if_pos hr, if_neg hsome, Option.some.injEq] at hlib
    subst hlib
    obtain ⟨-, hrunning, -, -, hdescriptors, -, -, -⟩ := schedule_fields
      { s.queues.lib with mainThread := some .main, runningThread := some .main } .utRun
    refine ⟨fun b => ?_, (fun left he => by cases he), fun _ => ?_, (fun he => by cases he)⟩
    · change b ∈ (schedule _ _).descriptors ↔ _
      rw [hdescriptors, h.alive, hmain]
      rfl
    · change (schedule _ _).runningThread ≠ none
      rw [hrunning]
      exact extract_ne_none rfl
  | left lib hmain hlib =>
    obtain ⟨-, hready, hnumber, rfl⟩ := next_leaveRun hlib
    refine ⟨fun b => ?_, (fun left he => by cases he), (fun he => by cases he),
      fun _ => ⟨rfl, hready, hnumber⟩⟩
    refine (h.alive b).trans ?_
    rw [hmain]
    rfl
  | opened cs hat hpc =>
    refine h.kept hat.running rfl rfl (hstays hat.running) fun th => ?_
    cases th with
    | reader => simp [State.Exited, hpc]
    | filter | presenter => exact Iff.rfl
  | readerPuts item pc hat hputs =>
    obtain ⟨hdescriptors, hrunning⟩ := semWait_spec hat.running (hinside (hstays hat.running))
      (.hasSpace .qreader)
    refine h.kept hat.running rfl hdescriptors hrunning fun th => ?_
    cases th with
    | reader =>
      generalize hpc : s.reader = before at hputs
      cases hputs <;> simp [State.Exited, hpc]
    | filter | presenter => exact Iff.rfl
  | filterGets hat | presenterGets hat =>
    obtain ⟨hdescriptors, hrunning⟩ := semWait_spec hat.running (hinside (hstays hat.running))
      (.hasItems _)
    exact h.kept hat.running rfl hdescriptors hrunning fun _ => Iff.rfl
  | filterGot line rest hr _ hpc hlist =>
    obtain ⟨hdescriptors, hrunning⟩ := hremoved hr hlist
    refine h.kept hr rfl hdescriptors hrunning fun th => ?_
    cases th with
    | filter => simp [State.Exited, hpc]
    | reader | presenter => exact Iff.rfl
  | filterPuts item pc hat hputs =>
    obtain ⟨hdescriptors, hrunning⟩ := semWait_spec hat.running (hinside (hstays hat.running))
      (.hasSpace .qfilter)
    refine h.kept hat.running rfl hdescriptors hrunning fun th => ?_
    cases th with
    | filter =>
      generalize hpc : s.filter = before at hputs
      cases hputs <;> simp [State.Exited, hpc]
    | reader | presenter => exact Iff.rfl
  | filterDrops line hat hpc =>
    refine h.kept hat.running rfl rfl (hstays hat.running) fun th => ?_
    cases th with
    | filter => simp [State.Exited, hpc]
    | reader | presenter => exact Iff.rfl
  | presenterGot line rest hr _ hpc hlist =>
    obtain ⟨hdescriptors, hrunning⟩ := hremoved hr hlist
    refine h.kept hr rfl hdescriptors hrunning fun th => ?_
    cases th with
    | presenter => simp [State.Exited, hpc]
    | reader | filter => exact Iff.rfl
  | prints line hat hpc | reports hat hpc =>
    refine h.kept hat.running rfl rfl (hstays hat.running) fun th => ?_
    cases th with
    | presenter => simp [State.Exited, hpc]
    | reader | filter => exact Iff.rfl
  | put th q item hr =>
    obtain ⟨hdescriptors, hrunning⟩ := hpost hr (.hasItems q)
    exact h.kept hr rfl hdescriptors hrunning fun _ => Iff.rfl
  | exits th hat hreturning =>
    have hrun := h.main_running hat.running
    obtain ⟨-, hrunning, -, -, hdescriptors, -, -, -, -⟩ := utExit_fields s.queues.lib hat.running
    have hmain : (s.leave th).main = .running := by
      rw [← hrun]
      cases th <;> rfl
    have hexited (th' : Thread) : (s.leave th).Exited th' ↔ th' = th ∨ s.Exited th' := by
      cases th <;> cases th' <;> simp [State.leave, State.Exited]
    refine ⟨fun b => ?_, fun left he => ?_, fun _ => ?_, fun he => ?_⟩
    · change b ∈ (utExit _).descriptors ↔
        ∃ th' : Thread, th'.block = b ∧ th' ∉ (s.leave th).main.left ∧ ¬ (s.leave th).Exited th'
      rw [hdescriptors, hnodup.mem_erase_iff, h.alive, hmain, hrun]
      constructor
      · rintro ⟨hne, th', rfl, hleft, hstayed⟩
        refine ⟨th', rfl, hleft, fun he => ?_⟩
        rcases (hexited th').mp he with rfl | he
        · exact hne rfl
        · exact hstayed he
      · rintro ⟨th', rfl, hleft, hstayed⟩
        refine ⟨fun he => ?_, th', rfl, hleft, fun he => hstayed ((hexited th').mpr (.inr he))⟩
        exact hstayed ((hexited th').mpr (.inl (block_injective he)))
    · cases hmain.symm.trans he
    · change (utExit _).runningThread ≠ none
      rw [hrunning]
      exact extract_ne_none (hinside (hstays hat.running))
    · cases hmain.symm.trans he

end Steps

end SistemasOperativos.Pgrep
