import SistemasOperativos.OwnedConnections
import SistemasOperativos.ThreadPool

/-!
# The concurrent echo server over the thread pool

The main thread accepts connections and submits each of them to the pool, under
its descriptor number. The worker that takes it echoes whole records until a
read is short, and closes the descriptor. A closed number may come back from
`accept` at once. The statements of the pool, of the main thread and of the
workers are interleaved. A write may fall short or fail, as on a connection that
was reset, and nobody looks at its result. It does not kill the process here.
-/

namespace SistemasOperativos.PoolEcho

open TransitionRuns Connections
open ByteMemory (Byte)
open ThreadPool (Thread Action Pc nthreads WorkItem)

/-- The pool. The main thread is its only client, all items have the function
`dispatch_connection`, and the argument is the descriptor. -/
abbrev Pool : Type := ThreadPool.State Unit Unit ℕ

/-- `sizeof(echo_msg_t)`. -/
abbrev sizeofMsg : ℕ := 256

/-- The main thread. -/
abbrev mainThread : Thread Unit := .client ()

/-- Where the main thread stands. -/
inductive MainPc
  /-- `accept`. -/
  | accepting
  /-- Inside `tp_submit`. -/
  | submitting
  /-- After the loop of `run`, before `tp_destroy`. -/
  | leaving
  /-- Inside `tp_destroy`. -/
  | destroying
  /-- `close(sfd)`. -/
  | closing
  | done
  deriving DecidableEq, Repr

/-- Where a worker stands in `process_connection`. -/
inductive Serving
  | reading
  | writing (msg : List Byte)
  | closing
  | returned
  deriving DecidableEq, Repr

/-- The pool, the descriptors with their traffic, and where the threads stand. -/
structure State where
  pool : Pool
  net : Traffic
  main : MainPc
  serving : Fin nthreads → Serving

/-- What happens next. -/
inductive Act
  /-- `accept` returns a descriptor, and `tp_submit` is called with it. -/
  | accept (cfd : ℕ)
  /-- `accept` fails, and the loop of `run` is left. -/
  | refuse
  /-- `tp_destroy` is called. -/
  | destroy
  /-- A thread inside the pool executes its next statement, a signal, or wakes. -/
  | run (p : Thread Unit)
  | signal (p : Thread Unit) (woken : Option (Thread Unit))
  | wake (p : Thread Unit)
  /-- `read` in `process_connection`. No bytes stand for the end or an error. -/
  | read (i : Fin nthreads) (bytes : List Byte)
  /-- `write` in `process_connection`, and how many bytes it takes. -/
  | write (i : Fin nthreads) (count : ℕ)
  /-- `close` in `process_connection`, and the return from it. -/
  | close (i : Fin nthreads)
  /-- `close(sfd)`. -/
  | closeServer

/-- The descriptor whose connection a worker processes. -/
def State.running (s : State) (i : Fin nthreads) : Option ℕ :=
  match s.pool.pc (.worker i) with
  | .running x => some x.arg
  | _ => none

/-- Where the main thread goes on when it is outside the pool's functions again. -/
def MainPc.back (main : MainPc) : Pc Unit ℕ → MainPc
  | .idle =>
    match main with
    | .submitting => .accepting
    | .destroying => .closing
    | main => main
  | _ => main

/-- The pool made a step of a thread. A worker that calls an item starts to process
its connection. -/
def State.stepped (s : State) (p : Thread Unit) (pool : Pool) : State :=
  match p with
  | .client () => { s with pool := pool, main := s.main.back (pool.pc mainThread) }
  | .worker i =>
    match s.pool.pc (.worker i) with
    | .calling _ => { s with pool := pool, serving := Function.update s.serving i .reading }
    | _ => { s with pool := pool }

/-- A worker inside `process_connection` does not go on in the pool. -/
def State.busy (s : State) : Thread Unit → Bool
  | .client () => false
  | .worker i => (s.running i).isSome && s.serving i != .returned

/-- One step. -/
def State.next (sfd : ℕ) (s : State) : Act → Option State
  | .accept cfd =>
    if s.main = .accepting then
      (s.net.accept cfd).bind fun net =>
        (s.pool.next (mainThread, .submit () cfd)).map fun pool =>
          { s with pool := pool, net := { s.net with toSockets := net }, main := .submitting }
    else none
  | .refuse => if s.main = .accepting then some { s with main := .leaving } else none
  | .destroy =>
    if s.main = .leaving then
      (s.pool.next (mainThread, .destroy)).map fun pool =>
        { s with pool := pool, main := .destroying }
    else none
  | .run p => if s.busy p then none else (s.pool.next (p, .run)).map (s.stepped p)
  | .signal p woken => (s.pool.next (p, .signal woken)).map (s.stepped p)
  | .wake p => (s.pool.next (p, .wake)).map (s.stepped p)
  | .read i bytes =>
    match s.running i, s.serving i with
    | some cfd, .reading =>
      if bytes.length ≤ sizeofMsg then
        some { s with
          net := { s.net with toSockets := s.net.read cfd bytes }
          serving := Function.update s.serving i
            (if bytes.length = sizeofMsg then .writing bytes else .closing) }
      else none
    | _, _ => none
  | .write i count =>
    match s.running i, s.serving i with
    | some cfd, .writing msg =>
      if h : count ≤ msg.length then
        some { s with
          net := s.net.write cfd ⟨msg, count, h⟩
          serving := Function.update s.serving i .reading }
      else none
    | _, _ => none
  | .close i =>
    match s.running i, s.serving i with
    | some cfd, .closing =>
      some { s with
        net := { s.net with toSockets := s.net.close cfd }
        serving := Function.update s.serving i .returned }
    | _, _ => none
  | .closeServer =>
    if s.main = .closing then
      some { s with net := { s.net with toSockets := s.net.close sfd }, main := .done }
    else none

/-- After `tp_init`, with the given descriptors open. -/
def initial (opened : Finset ℕ) : State where
  pool := ThreadPool.initial
  net := .start opened
  main := .accepting
  serving := fun _ => .returned

/-- The runs of the server. -/
def server (opened : Finset ℕ) (sfd : ℕ) : System State Act :=
  ofNext (fun s => s = initial opened) (State.next sfd)

end SistemasOperativos.PoolEcho
