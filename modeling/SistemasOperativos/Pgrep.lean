import SistemasOperativos.ByteMemory
import SistemasOperativos.UThreadQueue

/-!
# The search program of the user-thread tests

Three cooperative threads and two bounded queues: `reader` passes the chunks of
a file on, `filter` those that contain a word, and `presenter` prints them. A
null pointer behind the last chunk marks the end. Each step of the program is
one step of the running thread, or of the main thread when no other runs.
-/

namespace SistemasOperativos.Pgrep

open TransitionRuns UThread UThreadQueue
open ByteMemory (Byte)

/-- What `fgets` leaves in `line`, up to the terminating zero. -/
abbrev Chunk : Type := List Byte

/-- `strstr`, with none for NULL. -/
def strstr (line word : List Byte) : Option (List Byte) :=
  line.tails.find? fun rest => word.isPrefixOf rest

/-- The two queues. -/
inductive Queue
  | qreader
  | qfilter
  deriving DecidableEq, Repr

/-- The threads, in the order in which `main` creates them. -/
inductive Thread
  | reader
  | filter
  | presenter
  deriving DecidableEq, Repr

/-- The block that malloc returns for the descriptor of a thread. -/
def Thread.block : Thread → ℕ
  | .reader => 0
  | .filter => 1
  | .presenter => 2

/-- The descriptor of a thread. -/
abbrev Thread.handle (t : Thread) : PUThread := .user t.block

/-- What `main` does next. -/
inductive MainPc
  /-- The calls of `ut_create` that are left, then `ut_run`. -/
  | creating (left : List Thread)
  /-- In `ut_run`. -/
  | running
  /-- After `ut_run`. -/
  | returned
  deriving DecidableEq, Repr

/-- What `reader` does next, when it is not in the queue code. -/
inductive ReaderPc
  /-- `fopen`. -/
  | opening
  /-- `fgets`, with the chunks that are left. -/
  | reading (rest : List Chunk)
  /-- The end of the function. -/
  | returning
  | exited
  deriving DecidableEq, Repr

/-- What `filter` does next, when it is not in the queue code. -/
inductive FilterPc
  /-- `queue_get`. -/
  | getting
  /-- The test of `line`. -/
  | got (line : Option Chunk)
  /-- The end of the function. -/
  | returning
  | exited
  deriving DecidableEq, Repr

/-- What `presenter` does next, when it is not in the queue code. -/
inductive PresenterPc
  /-- `queue_get`. -/
  | getting
  /-- The test of `line`. -/
  | got (line : Option Chunk)
  /-- The end of the function. -/
  | returning
  | exited
  deriving DecidableEq, Repr

/-- The queues with the library under them, the local variables and the output. -/
structure State where
  queues : QState Queue Empty (Option Chunk)
  main : MainPc
  reader : ReaderPc
  filter : FilterPc
  presenter : PresenterPc
  /-- The variable of `presenter`. -/
  count : ℤ
  /-- The chunks printed, in order. -/
  printed : List Chunk
  /-- The number in the last line of the output. -/
  report : Option ℤ

/-- A step in the queue code or in the library. -/
def State.call (s : State) (a : Action Queue Empty (Option Chunk)) : Option State :=
  (queueNext s.queues a).map fun x => { s with queues := x }

/-- The next statement of `reader`. -/
def State.readerNext (s : State) (file : Option (List Chunk)) : Option State :=
  match s.queues.pc Thread.reader.handle with
  | .idle =>
    match s.reader, file with
    | .opening, none => { s with reader := .returning }.call (.put .qreader none)
    | .opening, some chunks => some { s with reader := .reading chunks }
    | .reading (line :: rest), _ => { s with reader := .reading rest }.call (.put .qreader (some line))
    | .reading [], _ => { s with reader := .returning }.call (.put .qreader none)
    | .returning, _ => { s with reader := .exited }.call (.lib (.call .utExit))
    | .exited, _ => none
  | _ => s.call .resume

/-- The next statement of `filter`. -/
def State.filterNext (s : State) (word : List Byte) : Option State :=
  match s.queues.pc Thread.filter.handle with
  | .idle =>
    match s.filter with
    | .getting => s.call (.get .qreader)
    | .got (some line) =>
      if (strstr line word).isSome then
        { s with filter := .getting }.call (.put .qfilter (some line))
      else some { s with filter := .getting }
    | .got none => { s with filter := .returning }.call (.put .qfilter none)
    | .returning => { s with filter := .exited }.call (.lib (.call .utExit))
    | .exited => none
  | .putting _ _ => s.call .resume
  | .getting _ =>
    match s.queues.list .qreader with
    | [] => none
    | line :: _ => { s with filter := .got line }.call .resume

/-- The next statement of `presenter`. -/
def State.presenterNext (s : State) : Option State :=
  match s.queues.pc Thread.presenter.handle with
  | .idle =>
    match s.presenter with
    | .getting => s.call (.get .qfilter)
    | .got (some line) =>
      some { s with
        printed := s.printed ++ [line]
        count := wrapInt (s.count + 1)
        presenter := .getting }
    | .got none => some { s with report := some s.count, presenter := .returning }
    | .returning => { s with presenter := .exited }.call (.lib (.call .utExit))
    | .exited => none
  | .putting _ _ => s.call .resume
  | .getting _ =>
    match s.queues.list .qfilter with
    | [] => none
    | line :: _ => { s with presenter := .got line }.call .resume

/-- The next statement of `main`. -/
def State.mainNext (s : State) : Option State :=
  match s.main with
  | .creating (t :: left) => { s with main := .creating left }.call (.lib (.create t.block))
  | .creating [] => { s with main := .running }.call (.lib .enterRun)
  | .running => { s with main := .returned }.call (.lib .leaveRun)
  | .returned => none

/-- The next statement of the program. -/
def State.next (file : Option (List Chunk)) (word : List Byte) (s : State) : Option State :=
  match s.queues.lib.runningThread with
  | some (.user 0) => s.readerNext file
  | some (.user 1) => s.filterNext word
  | some (.user 2) => s.presenterNext
  | some (.user _) => none
  | _ => s.mainNext

/-- After `queue_init` and `ut_init`. -/
def start (size : Queue → ℤ) : State where
  queues := queueStart size Empty.elim
  main := .creating [.reader, .filter, .presenter]
  reader := .opening
  filter := .getting
  presenter := .getting
  count := 0
  printed := []
  report := none

/-- The run of the program on a file, none when it cannot be opened, for a word,
with queues of any size. -/
def program (file : Option (List Chunk)) (word : List Byte) (size : Queue → ℤ) :
    System State Unit := ofNext (fun s => s = start size) fun s _ => s.next file word

end SistemasOperativos.Pgrep
