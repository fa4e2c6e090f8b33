import SistemasOperativos.PgrepProgress

/-!
# The run of the search program

Until `ut_run` has returned there is a next statement, and every statement
brings some item or thread closer to its end.
-/

namespace SistemasOperativos.Pgrep

open TransitionRuns UThread UThreadConservation UThreadQueue
open ByteMemory (Byte)

variable {file : Option (List Chunk)} {word : List Byte} {size : Queue → ℤ} {s t : State}

section Next

/-- A step in the queue code is one of the program, whatever the thread does next. -/
theorem call_some {u : State} {a : Action Queue Empty (Option Chunk)}
    {x : QState Queue Empty (Option Chunk)} (h : queueNext u.queues a = some x) :
    ∃ t, u.call a = some t := ⟨_, by rw [State.call, h, Option.map_some]⟩

/-- A running thread that gets an item finds one. -/
theorem Inv.list_ne_nil (h : Inv file word size s) (hsize : Sizes size) {th : Thread} {q : Queue}
    (hr : s.queues.lib.runningThread = some th.handle)
    (hp : s.queues.pc th.handle = .getting q) : s.queues.list q ≠ [] := by
  intro hnil
  have hinv := h.queueInv hsize
  have htarget : (s.queues.pc th.handle).target = some (.hasItems q : QSem Queue Empty) := by
    rw [hp]
    rfl
  have hgranted := granted_running hr htarget
  have hunits := units_nonneg hinv.tracked (s := .hasItems q) rfl
  have hitems := hinv.items q
  rw [hnil, List.length_nil, owed] at hitems
  omega

/-- The reader goes on until it has left. -/
theorem Inv.readerNext_some (h : Inv file word size s)
    (hr : s.queues.lib.runningThread = some Thread.reader.handle) (hstayed : s.reader ≠ .exited) :
    ∃ t, s.readerNext file = some t := by
  unfold State.readerNext
  rcases h.places.reader with hp | ⟨item, hp⟩
  · rw [hp]
    dsimp only
    split
    · exact call_some (queueNext_put hr hp .qreader none)
    · exact ⟨_, rfl⟩
    · exact call_some (queueNext_put hr hp .qreader _)
    · exact call_some (queueNext_put hr hp .qreader none)
    · exact call_some (queueNext_exit hr hp)
    · next hpc => exact absurd hpc hstayed
  · rw [hp]
    exact call_some (queueNext_putting hr hp)

/-- The filter goes on until it has left. -/
theorem Inv.filterNext_some (h : Inv file word size s) (hsize : Sizes size)
    (hr : s.queues.lib.runningThread = some Thread.filter.handle) (hstayed : s.filter ≠ .exited) :
    ∃ t, s.filterNext word = some t := by
  unfold State.filterNext
  rcases h.places.filter with hp | ⟨item, hp⟩ | ⟨hp, -⟩
  · rw [hp]
    dsimp only
    split
    · exact call_some (queueNext_get hr hp .qreader)
    · split
      · exact call_some (queueNext_put hr hp .qfilter _)
      · exact ⟨_, rfl⟩
    · exact call_some (queueNext_put hr hp .qfilter none)
    · exact call_some (queueNext_exit hr hp)
    · next hpc => exact absurd hpc hstayed
  · rw [hp]
    exact call_some (queueNext_putting hr hp)
  · rw [hp]
    dsimp only
    split
    · next hnil => exact absurd hnil (h.list_ne_nil hsize hr hp)
    · exact call_some (queueNext_getting hr hp)

/-- The presenter goes on until it has left. -/
theorem Inv.presenterNext_some (h : Inv file word size s) (hsize : Sizes size)
    (hr : s.queues.lib.runningThread = some Thread.presenter.handle)
    (hstayed : s.presenter ≠ .exited) : ∃ t, s.presenterNext = some t := by
  unfold State.presenterNext
  rcases h.places.presenter with hp | ⟨hp, -⟩
  · rw [hp]
    dsimp only
    split
    · exact call_some (queueNext_get hr hp .qfilter)
    · exact ⟨_, rfl⟩
    · exact ⟨_, rfl⟩
    · exact call_some (queueNext_exit hr hp)
    · next hpc => exact absurd hpc hstayed
  · rw [hp]
    dsimp only
    split
    · next hnil => exact absurd hnil (h.list_ne_nil hsize hr hp)
    · exact call_some (queueNext_getting hr hp)

/-- Outside `ut_run`, `main` creates the threads and enters `ut_run`. -/
theorem Inv.mainNext_outside (h : Inv file word size s) (hmain : s.main ≠ .returned)
    (hr : s.queues.lib.runningThread = none) : ∃ t, s.mainNext = some t := by
  have hnot (b : ℕ) : s.queues.lib.runningThread ≠ some (.user b) := by
    rw [hr]
    exact fun he => (nomatch he)
  unfold State.mainNext
  split
  · next th left hpc =>
    have hfresh : th.block ∉ s.queues.lib.descriptors := by
      rw [h.threads.alive, hpc]
      rintro ⟨th', hblock, hleft, -⟩
      exact hleft (block_injective hblock ▸ List.mem_cons_self)
    have hnext : UThread.next s.queues.lib (.create th.block) =
        some (utCreate th.block s.queues.lib) := if_pos ⟨hr, hfresh⟩
    exact call_some ((queueNext_main hnot rfl).trans (congrArg _ hnext))
  · obtain ⟨lib, hlib⟩ : ∃ lib, UThread.next s.queues.lib .enterRun = some lib := by
      simp only [UThread.next, utRun, if_pos hr]
      split
      · exact ⟨_, rfl⟩
      · exact ⟨_, rfl⟩
    exact call_some ((queueNext_main hnot rfl).trans (congrArg _ hlib))
  · next hpc => exact absurd hr (h.threads.running hpc)
  · next hpc => exact absurd hpc hmain

/-- In `ut_run`, `main` finds its closing assertions to hold. -/
theorem Inv.mainNext_inside (h : Inv file word size s) (hsize : Sizes size)
    (hr : s.queues.lib.runningThread = some .main) : ∃ t, s.mainNext = some t := by
  have hnot (b : ℕ) : s.queues.lib.runningThread ≠ some (.user b) := by
    rw [hr]
    exact fun he => (nomatch he)
  obtain ⟨loc, hc⟩ := h.conserved
  have hnumber : s.queues.lib.numberOfThreads = 0 := by
    rw [hc.counted, h.all_gone hsize hr, List.length_nil]
  have hnext : UThread.next s.queues.lib .leaveRun =
      some { s.queues.lib with runningThread := none, mainThread := none } := by
    rw [UThread.next, if_pos hr]
    exact if_pos ⟨hc.drained hr, hnumber⟩
  unfold State.mainNext
  rw [h.threads.main_running hr]
  exact call_some ((queueNext_main hnot rfl).trans (congrArg _ hnext))

/-- Until `ut_run` has returned there is a next statement. -/
theorem Inv.next_some (h : Inv file word size s) (hsize : Sizes size) (hmain : s.main ≠ .returned) :
    ∃ t, s.next file word = some t := by
  unfold State.next
  cases hr : s.queues.lib.runningThread with
  | none => exact h.mainNext_outside hmain hr
  | some p =>
    cases p with
    | main => exact h.mainNext_inside hsize hr
    | user b =>
      obtain ⟨loc, hc⟩ := h.conserved
      obtain ⟨th, rfl, -, hstayed⟩ := (h.threads.alive b).mp (running_mem hc hr)
      cases th with
      | reader => exact h.readerNext_some hr hstayed
      | filter => exact h.filterNext_some hsize hr hstayed
      | presenter => exact h.presenterNext_some hsize hr hstayed

/-- After `ut_run` has returned there is none. -/
theorem Inv.next_none (h : Inv file word size s) (hmain : s.main = .returned) :
    s.next file word = none := by
  have hr := (h.threads.returned hmain).1
  unfold State.next
  rw [hr]
  change s.mainNext = none
  unfold State.mainNext
  rw [hmain]

end Next

section Work

/-- Steps that `main` has left. -/
def MainPc.work : MainPc → ℕ
  | .creating left => left.length + 2
  | .running => 1
  | .returned => 0

/-- Steps that `reader` has left, besides those for its chunks. -/
def ReaderPc.work : ReaderPc → ℕ
  | .opening => 2
  | .reading _ | .returning => 1
  | .exited => 0

/-- Steps that `filter` has left, with those for the item that it holds. -/
def FilterPc.work : FilterPc → ℕ
  | .getting | .returning => 1
  | .got _ => 6
  | .exited => 0

/-- Steps that `presenter` has left, with those for the item that it holds. -/
def PresenterPc.work : PresenterPc → ℕ
  | .getting | .returning => 1
  | .got _ => 2
  | .exited => 0

/-- Steps that an item in a queue needs at most. -/
def Queue.cost : Queue → ℕ
  | .qreader => 7
  | .qfilter => 3

/-- Steps that the place of a thread leaves, with those for the item that it inserts. -/
def codeWork : Pc Queue (Option Chunk) → ℕ
  | .getting _ => 0
  | .idle => 1
  | .putting q _ => q.cost + 2

/-- The same for all threads. -/
def placeWork (pc : PUThread → Pc Queue (Option Chunk)) : ℕ :=
  codeWork (pc Thread.reader.handle) + codeWork (pc Thread.filter.handle) +
    codeWork (pc Thread.presenter.handle)

/-- Steps that the items in the queues need at most. -/
def listWork (list : Queue → List (Option Chunk)) : ℕ :=
  Queue.qreader.cost * (list .qreader).length + Queue.qfilter.cost * (list .qfilter).length

/-- Steps that are left at most, until the program has returned. -/
def State.work (file : Option (List Chunk)) (s : State) : ℕ :=
  s.main.work + (9 * (s.reader.left file).length + s.reader.work) + s.filter.work +
    s.presenter.work + placeWork s.queues.pc + listWork s.queues.list

/-- A thread that moves changes its own share. -/
theorem placeWork_update (pc : PUThread → Pc Queue (Option Chunk)) (th : Thread)
    (p : Pc Queue (Option Chunk)) :
    placeWork (Function.update pc th.handle p) + codeWork (pc th.handle) =
      placeWork pc + codeWork p := by
  have hself := Function.update_self th.handle p pc
  have hother {b : Thread} (hb : b ≠ th) :
      Function.update pc th.handle p b.handle = pc b.handle :=
    Function.update_of_ne (handle_ne hb) p pc
  unfold placeWork
  cases th with
  | reader =>
    rw [hself, hother (b := .filter) (by decide), hother (b := .presenter) (by decide)]
    omega
  | filter =>
    rw [hself, hother (b := .reader) (by decide), hother (b := .presenter) (by decide)]
    omega
  | presenter =>
    rw [hself, hother (b := .reader) (by decide), hother (b := .filter) (by decide)]
    omega

/-- A queue that changes changes its own share. -/
theorem listWork_update (list : Queue → List (Option Chunk)) (q : Queue)
    (items : List (Option Chunk)) :
    listWork (Function.update list q items) + q.cost * (list q).length =
      listWork list + q.cost * items.length := by
  unfold listWork
  cases q with
  | qreader =>
    rw [Function.update_self, Function.update_of_ne (by decide)]
    omega
  | qfilter =>
    rw [Function.update_self, Function.update_of_ne (by decide)]
    omega

/-- `queue_put` up to its `sem_wait`, by a thread that has the item. -/
theorem placeWork_put {th : Thread} (hidle : s.queues.pc th.handle = .idle) (q : Queue)
    (item : Option Chunk) :
    placeWork (queuePut q item th.handle s.queues).pc = placeWork s.queues.pc + q.cost + 1 := by
  have hupdate := placeWork_update s.queues.pc th (.putting q item)
  rw [hidle] at hupdate
  simp only [codeWork] at hupdate
  simp only [queuePut]
  omega

/-- `queue_put` after its `sem_wait`. -/
theorem work_putRest {th : Thread} {q : Queue} {item : Option Chunk}
    (hp : s.queues.pc th.handle = .putting q item) :
    placeWork (queuePutRest q item th.handle s.queues).pc +
      listWork (queuePutRest q item th.handle s.queues).list + 1 =
        placeWork s.queues.pc + listWork s.queues.list := by
  have hplace := placeWork_update s.queues.pc th .idle
  have hlist := listWork_update s.queues.list q (s.queues.list q ++ [item])
  rw [hp] at hplace
  rw [List.length_append, List.length_singleton, Nat.mul_succ] at hlist
  simp only [codeWork] at hplace
  simp only [queuePutRest]
  omega

/-- `queue_get` up to its `sem_wait`. -/
theorem placeWork_get {th : Thread} (hidle : s.queues.pc th.handle = .idle) (q : Queue) :
    placeWork (queueGet q th.handle s.queues).pc + 1 = placeWork s.queues.pc := by
  have hupdate := placeWork_update s.queues.pc th (.getting q)
  rw [hidle] at hupdate
  simp only [codeWork] at hupdate
  simp only [queueGet]
  omega

/-- `queue_get` after its `sem_wait`. -/
theorem work_getRest {th : Thread} {q : Queue} {item : Option Chunk} {rest : List (Option Chunk)}
    (hp : s.queues.pc th.handle = .getting q) (hlist : s.queues.list q = item :: rest) :
    placeWork (queueGetRest q th.handle s.queues).pc +
      listWork (queueGetRest q th.handle s.queues).list + q.cost =
        placeWork s.queues.pc + listWork s.queues.list + 1 := by
  have hplace := placeWork_update s.queues.pc th .idle
  have hlength := listWork_update s.queues.list q rest
  rw [hp] at hplace
  rw [hlist, List.length_cons, Nat.mul_succ] at hlength
  simp only [codeWork] at hplace
  simp only [queueGetRest, hlist]
  omega

/-- Every step brings the program closer to its end. -/
theorem Moves.work_lt (hmove : Moves file word s t) : t.work file < s.work file := by
  cases hmove with
  | created th left lib hmain => simp only [State.work, hmain, MainPc.work, List.length_cons]; omega
  | entered lib hmain => simp only [State.work, hmain, MainPc.work, List.length_nil]; omega
  | left lib hmain => simp only [State.work, hmain, MainPc.work]; omega
  | opened cs _ hpc hfile =>
    have hleft : (ReaderPc.opening.left file).length = ((ReaderPc.reading cs).left file).length := by
      rw [ReaderPc.left, ReaderPc.left, chunks, hfile, Option.getD_some]
    simp only [State.work, hpc, hleft, ReaderPc.work]
    omega
  | readerPuts item pc hat hputs =>
    have hplace := placeWork_put hat.idle .qreader item
    have hleft := congrArg List.length hputs.left_eq
    have hwork : pc.work ≤ s.reader.work := by
      generalize s.reader = before at hputs
      cases hputs <;> simp [ReaderPc.work]
    rw [List.length_cons] at hleft
    simp only [State.work, hplace, hleft, Queue.cost]
    change _ + listWork s.queues.list < _
    omega
  | filterGets hat =>
    have hplace := placeWork_get hat.idle .qreader
    simp only [State.work, ← hplace]
    change _ + listWork s.queues.list < _
    omega
  | filterGot line rest _ hp hpc hlist =>
    have hwork := work_getRest hp hlist
    simp only [State.work, hpc, FilterPc.work]
    simp only [Queue.cost] at hwork
    omega
  | filterPuts item pc hat hputs =>
    have hplace := placeWork_put hat.idle .qfilter item
    have hwork : pc.work + 5 ≤ s.filter.work := by
      generalize s.filter = before at hputs
      cases hputs <;> simp [FilterPc.work]
    simp only [State.work, hplace, Queue.cost]
    change _ + listWork s.queues.list < _
    omega
  | filterDrops line _ hpc =>
    simp only [State.work, hpc, FilterPc.work]
    omega
  | presenterGets hat =>
    have hplace := placeWork_get hat.idle .qfilter
    simp only [State.work, ← hplace]
    change _ + listWork s.queues.list < _
    omega
  | presenterGot line rest _ hp hpc hlist =>
    have hwork := work_getRest hp hlist
    simp only [State.work, hpc, PresenterPc.work]
    simp only [Queue.cost] at hwork
    omega
  | prints line _ hpc | reports _ hpc =>
    simp only [State.work, hpc, PresenterPc.work]
    omega
  | put th q item _ hp =>
    have hwork := work_putRest hp
    simp only [State.work]
    omega
  | exits th _ hreturning =>
    cases th with
    | reader =>
      have hpc : s.reader = .returning := hreturning
      simp only [State.work, State.leave, hpc, ReaderPc.work, ReaderPc.left]
      omega
    | filter =>
      have hpc : s.filter = .returning := hreturning
      simp only [State.work, State.leave, hpc, FilterPc.work]
      omega
    | presenter =>
      have hpc : s.presenter = .returning := hreturning
      simp only [State.work, State.leave, hpc, PresenterPc.work]
      omega

/-- Every run can go on until `ut_run` has returned. -/
theorem returns (hsize : Sizes size) (hs : (program file word size).Reachable s) :
    ∃ t, (program file word size).Steps s t ∧ t.main = .returned := by
  refine hs.eventually (State.work file) fun u hu hnot => ?_
  have hI := inv_reachable hu
  obtain ⟨v, hv⟩ := hI.next_some hsize hnot
  exact ⟨(), v, hv, (next_moves hI.places hv).work_lt⟩

end Work

end SistemasOperativos.Pgrep
