import SistemasOperativos.Pgrep

/-!
# The steps of the search program

Which statement of which thread a step executes, and what it finds. A thread
is in the code of the queues it uses, or not in the queue code at all.
-/

namespace SistemasOperativos.Pgrep

open TransitionRuns UThread UThreadQueue
open ByteMemory (Byte)

/-- The threads have different handles. -/
theorem handle_ne {a b : Thread} (h : a ≠ b) : a.handle ≠ b.handle := by
  cases a <;> cases b <;> first | exact absurd rfl h | decide

section Queues

variable {x : QState Queue Empty (Option Chunk)} {b : ℕ} {q : Queue} {item : Option Chunk}

/-- A running thread outside the queue code calls `queue_put`. -/
theorem queueNext_put (hr : x.lib.runningThread = some (.user b)) (hp : x.pc (.user b) = .idle)
    (q : Queue) (item : Option Chunk) :
    queueNext x (.put q item) = some (queuePut q item (.user b) x) := by
  simp only [queueNext, runningAt, hr, hp]

/-- It calls `queue_get`. -/
theorem queueNext_get (hr : x.lib.runningThread = some (.user b)) (hp : x.pc (.user b) = .idle)
    (q : Queue) : queueNext x (.get q) = some (queueGet q (.user b) x) := by
  simp only [queueNext, runningAt, hr, hp]

/-- It returns from its function. -/
theorem queueNext_exit (hr : x.lib.runningThread = some (.user b)) (hp : x.pc (.user b) = .idle) :
    queueNext x (.lib (.call .utExit)) = some { x with lib := utExit x.lib } := by
  simp [queueNext, runningAt, hr, hp, outside, next, mallocOk, perform]

/-- A running thread goes on in `queue_put`. -/
theorem queueNext_putting (hr : x.lib.runningThread = some (.user b))
    (hp : x.pc (.user b) = .putting q item) :
    queueNext x .resume = some (queuePutRest q item (.user b) x) := by
  simp only [queueNext, runningAt, hr, hp]

/-- It goes on in `queue_get`. -/
theorem queueNext_getting (hr : x.lib.runningThread = some (.user b))
    (hp : x.pc (.user b) = .getting q) :
    queueNext x .resume = some (queueGetRest q (.user b) x) := by
  simp only [queueNext, runningAt, hr, hp]

/-- The main thread calls the library. -/
theorem queueNext_main (hr : ∀ b, x.lib.runningThread ≠ some (.user b))
    {c : Command (QSem Queue Empty) Empty} (hout : outside c = true) :
    queueNext x (.lib c) = (next x.lib c).map fun lib => { x with lib := lib } := by
  have hnone : runningAt x = none := by
    unfold runningAt
    split
    next b hb => exact absurd hb (hr b)
    next => rfl
  simp only [queueNext, hout, hnone]

end Queues

/-- Each thread is outside the queue code, or in the code that it calls. -/
structure Places (s : State) : Prop where
  reader : s.queues.pc Thread.reader.handle = .idle ∨
    ∃ item, s.queues.pc Thread.reader.handle = .putting .qreader item
  filter : s.queues.pc Thread.filter.handle = .idle ∨
    (∃ item, s.queues.pc Thread.filter.handle = .putting .qfilter item) ∨
    s.queues.pc Thread.filter.handle = .getting .qreader ∧ s.filter = .getting
  presenter : s.queues.pc Thread.presenter.handle = .idle ∨
    s.queues.pc Thread.presenter.handle = .getting .qfilter ∧ s.presenter = .getting

/-- What `reader` puts in its queue, and where it goes on. -/
inductive ReaderPc.Puts (file : Option (List Chunk)) : ReaderPc → Option Chunk → ReaderPc → Prop
  | unopened : file = none → Puts file .opening none .returning
  | chunk (line : Chunk) (rest : List Chunk) :
      Puts file (.reading (line :: rest)) (some line) (.reading rest)
  | marker : Puts file (.reading []) none .returning

/-- What `filter` puts in its queue, and where it goes on. -/
inductive FilterPc.Puts (word : List Byte) : FilterPc → Option Chunk → FilterPc → Prop
  | chunk (line : Chunk) : (strstr line word).isSome → Puts word (.got (some line)) (some line) .getting
  | marker : Puts word (.got none) none .returning

/-- A thread has come to the end of its function. -/
def State.Returning (s : State) : Thread → Prop
  | .reader => s.reader = .returning
  | .filter => s.filter = .returning
  | .presenter => s.presenter = .returning

/-- The thread has left. -/
def State.leave (s : State) : Thread → State
  | .reader => { s with reader := .exited }
  | .filter => { s with filter := .exited }
  | .presenter => { s with presenter := .exited }

/-- The thread runs, and is outside the queue code. -/
structure State.AtIdle (s : State) (t : Thread) : Prop where
  running : s.queues.lib.runningThread = some t.handle
  idle : s.queues.pc t.handle = .idle

/-- The steps of the program, with what each one found. -/
inductive Moves (file : Option (List Chunk)) (word : List Byte) (s : State) : State → Prop
  | created (t : Thread) (left : List Thread) (lib : UThread.State (QSem Queue Empty) Empty) :
      s.main = .creating (t :: left) → next s.queues.lib (.create t.block) = some lib →
      Moves file word s { s with queues := { s.queues with lib := lib }, main := .creating left }
  | entered (lib : UThread.State (QSem Queue Empty) Empty) :
      s.main = .creating [] → next s.queues.lib .enterRun = some lib →
      Moves file word s { s with queues := { s.queues with lib := lib }, main := .running }
  | left (lib : UThread.State (QSem Queue Empty) Empty) :
      s.main = .running → next s.queues.lib .leaveRun = some lib →
      Moves file word s { s with queues := { s.queues with lib := lib }, main := .returned }
  | opened (chunks : List Chunk) : s.AtIdle .reader → s.reader = .opening → file = some chunks →
      Moves file word s { s with reader := .reading chunks }
  | readerPuts (item : Option Chunk) (pc : ReaderPc) : s.AtIdle .reader →
      s.reader.Puts file item pc →
      Moves file word s { s with
        queues := queuePut .qreader item Thread.reader.handle s.queues
        reader := pc }
  | filterGets : s.AtIdle .filter → s.filter = .getting →
      Moves file word s { s with queues := queueGet .qreader Thread.filter.handle s.queues }
  | filterGot (line : Option Chunk) (rest : List (Option Chunk)) :
      s.queues.lib.runningThread = some Thread.filter.handle →
      s.queues.pc Thread.filter.handle = .getting .qreader → s.filter = .getting →
      s.queues.list .qreader = line :: rest →
      Moves file word s { s with
        queues := queueGetRest .qreader Thread.filter.handle s.queues
        filter := .got line }
  | filterPuts (item : Option Chunk) (pc : FilterPc) : s.AtIdle .filter →
      s.filter.Puts word item pc →
      Moves file word s { s with
        queues := queuePut .qfilter item Thread.filter.handle s.queues
        filter := pc }
  | filterDrops (line : Chunk) : s.AtIdle .filter → s.filter = .got (some line) →
      ¬ (strstr line word).isSome → Moves file word s { s with filter := .getting }
  | presenterGets : s.AtIdle .presenter → s.presenter = .getting →
      Moves file word s { s with queues := queueGet .qfilter Thread.presenter.handle s.queues }
  | presenterGot (line : Option Chunk) (rest : List (Option Chunk)) :
      s.queues.lib.runningThread = some Thread.presenter.handle →
      s.queues.pc Thread.presenter.handle = .getting .qfilter → s.presenter = .getting →
      s.queues.list .qfilter = line :: rest →
      Moves file word s { s with
        queues := queueGetRest .qfilter Thread.presenter.handle s.queues
        presenter := .got line }
  | prints (line : Chunk) : s.AtIdle .presenter → s.presenter = .got (some line) →
      Moves file word s { s with
        printed := s.printed ++ [line]
        count := wrapInt (s.count + 1)
        presenter := .getting }
  | reports : s.AtIdle .presenter → s.presenter = .got none →
      Moves file word s { s with report := some s.count, presenter := .returning }
  | put (t : Thread) (q : Queue) (item : Option Chunk) :
      s.queues.lib.runningThread = some t.handle → s.queues.pc t.handle = .putting q item →
      Moves file word s { s with queues := queuePutRest q item t.handle s.queues }
  | exits (t : Thread) : s.AtIdle t → s.Returning t →
      Moves file word s { s.leave t with queues := { s.queues with lib := utExit s.queues.lib } }

section Inversion

variable {file : Option (List Chunk)} {word : List Byte} {s t : State}

/-- The steps of `reader`. -/
theorem readerNext_moves (h : Places s)
    (hr : s.queues.lib.runningThread = some Thread.reader.handle)
    (hnext : s.readerNext file = some t) : Moves file word s t := by
  unfold State.readerNext at hnext
  rcases h.reader with hp | ⟨item, hp⟩
  · have hat : s.AtIdle .reader := ⟨hr, hp⟩
    rw [hp] at hnext
    dsimp only at hnext
    split at hnext
    · next hpc =>
      rw [State.call, queueNext_put hr hp] at hnext
      cases hnext
      exact .readerPuts none .returning hat (hpc ▸ .unopened rfl)
    · next chunks hpc =>
      cases hnext
      exact .opened chunks hat hpc rfl
    · next line rest hpc =>
      rw [State.call, queueNext_put hr hp] at hnext
      cases hnext
      exact .readerPuts (some line) (.reading rest) hat (hpc ▸ .chunk line rest)
    · next hpc =>
      rw [State.call, queueNext_put hr hp] at hnext
      cases hnext
      exact .readerPuts none .returning hat (hpc ▸ .marker)
    · next hpc =>
      rw [State.call, queueNext_exit hr hp] at hnext
      cases hnext
      exact .exits .reader hat hpc
    · cases hnext
  · rw [hp] at hnext
    dsimp only at hnext
    rw [State.call, queueNext_putting hr hp] at hnext
    cases hnext
    exact .put .reader .qreader item hr hp

/-- The steps of `filter`. -/
theorem filterNext_moves (h : Places s)
    (hr : s.queues.lib.runningThread = some Thread.filter.handle)
    (hnext : s.filterNext word = some t) : Moves file word s t := by
  unfold State.filterNext at hnext
  rcases h.filter with hp | ⟨item, hp⟩ | ⟨hp, hpc⟩
  · have hat : s.AtIdle .filter := ⟨hr, hp⟩
    rw [hp] at hnext
    dsimp only at hnext
    split at hnext
    · next hpc =>
      rw [State.call, queueNext_get hr hp] at hnext
      cases hnext
      exact .filterGets hat hpc
    · next line hpc =>
      split at hnext
      · next hfound =>
        rw [State.call, queueNext_put hr hp] at hnext
        cases hnext
        exact .filterPuts (some line) .getting hat (hpc ▸ .chunk line hfound)
      · next hmissed =>
        cases hnext
        exact .filterDrops line hat hpc hmissed
    · next hpc =>
      rw [State.call, queueNext_put hr hp] at hnext
      cases hnext
      exact .filterPuts none .returning hat (hpc ▸ .marker)
    · next hpc =>
      rw [State.call, queueNext_exit hr hp] at hnext
      cases hnext
      exact .exits .filter hat hpc
    · cases hnext
  · rw [hp] at hnext
    dsimp only at hnext
    rw [State.call, queueNext_putting hr hp] at hnext
    cases hnext
    exact .put .filter .qfilter item hr hp
  · rw [hp] at hnext
    dsimp only at hnext
    split at hnext
    · cases hnext
    · next line rest hlist =>
      rw [State.call, queueNext_getting hr hp] at hnext
      cases hnext
      exact .filterGot line rest hr hp hpc hlist

/-- The steps of `presenter`. -/
theorem presenterNext_moves (h : Places s)
    (hr : s.queues.lib.runningThread = some Thread.presenter.handle)
    (hnext : s.presenterNext = some t) : Moves file word s t := by
  unfold State.presenterNext at hnext
  rcases h.presenter with hp | ⟨hp, hpc⟩
  · have hat : s.AtIdle .presenter := ⟨hr, hp⟩
    rw [hp] at hnext
    dsimp only at hnext
    split at hnext
    · next hpc =>
      rw [State.call, queueNext_get hr hp] at hnext
      cases hnext
      exact .presenterGets hat hpc
    · next line hpc =>
      cases hnext
      exact .prints line hat hpc
    · next hpc =>
      cases hnext
      exact .reports hat hpc
    · next hpc =>
      rw [State.call, queueNext_exit hr hp] at hnext
      cases hnext
      exact .exits .presenter hat hpc
    · cases hnext
  · rw [hp] at hnext
    dsimp only at hnext
    split at hnext
    · cases hnext
    · next line rest hlist =>
      rw [State.call, queueNext_getting hr hp] at hnext
      cases hnext
      exact .presenterGot line rest hr hp hpc hlist

/-- The steps of `main`. -/
theorem mainNext_moves (hr : ∀ b, s.queues.lib.runningThread ≠ some (.user b))
    (hnext : s.mainNext = some t) : Moves file word s t := by
  unfold State.mainNext at hnext
  split at hnext
  · next th left hmain =>
    rw [State.call, queueNext_main hr rfl, Option.map_map] at hnext
    obtain ⟨lib, hlib, rfl⟩ := Option.map_eq_some_iff.mp hnext
    exact .created th left lib hmain hlib
  · next hmain =>
    rw [State.call, queueNext_main hr rfl, Option.map_map] at hnext
    obtain ⟨lib, hlib, rfl⟩ := Option.map_eq_some_iff.mp hnext
    exact .entered lib hmain hlib
  · next hmain =>
    rw [State.call, queueNext_main hr rfl, Option.map_map] at hnext
    obtain ⟨lib, hlib, rfl⟩ := Option.map_eq_some_iff.mp hnext
    exact .left lib hmain hlib
  · cases hnext

/-- Every step of the program is one of these. -/
theorem next_moves (h : Places s) (hnext : s.next file word = some t) : Moves file word s t := by
  unfold State.next at hnext
  split at hnext
  · next hr => exact readerNext_moves h hr hnext
  · next hr => exact filterNext_moves h hr hnext
  · next hr => exact presenterNext_moves h hr hnext
  · cases hnext
  · next hr => exact mainNext_moves hr hnext

/-- The threads that do not run stay where they are in the queue code. -/
theorem pc_of_ne {p : Pc Queue (Option Chunk)} {a b : Thread} (hb : b ≠ a)
    (hpc : t.queues.pc = Function.update s.queues.pc a.handle p) :
    t.queues.pc b.handle = s.queues.pc b.handle := by
  rw [hpc, Function.update_of_ne (handle_ne hb)]

/-- Where the running thread is after `queue_get` has removed an item. -/
theorem getRest_pc {a : Thread} {q : Queue} {line : Option Chunk} {rest : List (Option Chunk)}
    (hlist : s.queues.list q = line :: rest) (ht : t.queues = queueGetRest q a.handle s.queues) :
    t.queues.pc = Function.update s.queues.pc a.handle .idle := by
  simp only [ht, queueGetRest, hlist]

/-- A step of `reader` moves no other thread. -/
theorem Places.of_reader {p : Pc Queue (Option Chunk)} (h : Places s)
    (hpc : t.queues.pc = Function.update s.queues.pc Thread.reader.handle p)
    (hfilter : t.filter = s.filter) (hpresenter : t.presenter = s.presenter)
    (hp : p = .idle ∨ ∃ item, p = .putting .qreader item) : Places t := by
  refine ⟨?_, ?_, ?_⟩
  · rw [hpc, Function.update_self]
    exact hp
  · rw [pc_of_ne (by decide) hpc, hfilter]
    exact h.filter
  · rw [pc_of_ne (by decide) hpc, hpresenter]
    exact h.presenter

/-- Nor does one of `filter`. -/
theorem Places.of_filter {p : Pc Queue (Option Chunk)} (h : Places s)
    (hpc : t.queues.pc = Function.update s.queues.pc Thread.filter.handle p)
    (hpresenter : t.presenter = s.presenter)
    (hp : p = .idle ∨ (∃ item, p = .putting .qfilter item) ∨
      p = .getting .qreader ∧ t.filter = .getting) : Places t := by
  refine ⟨?_, ?_, ?_⟩
  · rw [pc_of_ne (by decide) hpc]
    exact h.reader
  · rw [hpc, Function.update_self]
    exact hp
  · rw [pc_of_ne (by decide) hpc, hpresenter]
    exact h.presenter

/-- Nor does one of `presenter`. -/
theorem Places.of_presenter {p : Pc Queue (Option Chunk)} (h : Places s)
    (hpc : t.queues.pc = Function.update s.queues.pc Thread.presenter.handle p)
    (hfilter : t.filter = s.filter)
    (hp : p = .idle ∨ p = .getting .qfilter ∧ t.presenter = .getting) : Places t := by
  refine ⟨?_, ?_, ?_⟩
  · rw [pc_of_ne (by decide) hpc]
    exact h.reader
  · rw [pc_of_ne (by decide) hpc, hfilter]
    exact h.filter
  · rw [hpc, Function.update_self]
    exact hp

/-- Every step keeps the threads in their places. -/
theorem Places.next (h : Places s) (hmove : Moves file word s t) : Places t := by
  cases hmove with
  | created | entered | left | opened => exact ⟨h.reader, h.filter, h.presenter⟩
  | readerPuts item => exact h.of_reader rfl rfl rfl (.inr ⟨item, rfl⟩)
  | filterGets _ hpc => exact h.of_filter rfl rfl (.inr (.inr ⟨rfl, hpc⟩))
  | filterGot line rest _ _ _ hlist => exact h.of_filter (getRest_pc hlist rfl) rfl (.inl rfl)
  | filterPuts item => exact h.of_filter rfl rfl (.inr (.inl ⟨item, rfl⟩))
  | filterDrops line hat => exact ⟨h.reader, .inl hat.idle, h.presenter⟩
  | presenterGets _ hpc => exact h.of_presenter rfl rfl (.inr ⟨rfl, hpc⟩)
  | presenterGot line rest _ _ _ hlist => exact h.of_presenter (getRest_pc hlist rfl) rfl (.inl rfl)
  | prints line hat => exact ⟨h.reader, h.filter, .inl hat.idle⟩
  | reports hat => exact ⟨h.reader, h.filter, .inl hat.idle⟩
  | put th =>
    cases th with
    | reader => exact h.of_reader rfl rfl rfl (.inl rfl)
    | filter => exact h.of_filter rfl rfl (.inl rfl)
    | presenter => exact h.of_presenter rfl rfl (.inl rfl)
  | exits th hat =>
    cases th with
    | reader => exact ⟨.inl hat.idle, h.filter, h.presenter⟩
    | filter => exact ⟨h.reader, .inl hat.idle, h.presenter⟩
    | presenter => exact ⟨h.reader, h.filter, .inl hat.idle⟩

end Inversion

end SistemasOperativos.Pgrep
