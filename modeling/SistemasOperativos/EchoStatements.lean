import SistemasOperativos.EchoChannels
import SistemasOperativos.MutexChannel

/-!
# The echo service, statement by statement

The server and the clients again, with their calls on the channels taken apart:
every statement of `mc_put`, `mc_get` and `mc_destroy` is a step of its own, and
the steps of the processes are interleaved. A message in a channel is the bytes
of its record. A statement on a mutex or a condition that was destroyed is a
step like any other, so a run shows where it happens.
-/

namespace SistemasOperativos.EchoStatements

open TransitionRuns MachineInt MutexChannel
open ByteMemory (Byte)
open EchoChannels (Pid Process Message snprintf sprintf respName requestText channelNameMaxSize
  echoServiceName echoClientPrefix)

/-- `sizeof (echo_msg_t)`: an `int` and `MAX_MSG_SIZE` characters. -/
def sizeofMsg : ℤ := 4 + 256

/-- The bytes of an `int` that is not negative, lowest first. -/
def intBytes (n : ℕ) : List Byte :=
  [.ofNat 8 n, .ofNat 8 (n / 256), .ofNat 8 (n / 65536), .ofNat 8 (n / 16777216)]

/-- The `int` in the first four bytes. -/
def readInt (bytes : List Byte) : ℤ :=
  int32 ((bytes.take 4).foldr (fun b n => b.toNat + 256 * n) 0 : ℕ)

/-- The record of a message. -/
def recordBytes (m : Message) : List Byte := intBytes m.sender.val ++ m.msg

/-- The name under which the server opens the channel of a sender. -/
def senderName (msg : List Byte) : List Char :=
  snprintf channelNameMaxSize (echoClientPrefix ++ (toString (readInt msg)).toList)

/-- What `mc_destroy` destroys. -/
inductive Part
  | hasItems
  | hasSpace
  | lock
  deriving DecidableEq, Repr

/-- The statements of `mc_destroy`. -/
inductive Teardown
  /-- The comparison of the owner, with the `munmap` of another process. -/
  | testing
  /-- `pthread_cond_destroy` or `pthread_mutex_destroy`. -/
  | destroying (part : Part)
  /-- `shmem_destroy`. -/
  | unmapping
  deriving DecidableEq, Repr

/-- Where the server stands. -/
inductive ServerAt
  | creating
  | getting
  | opening (msg : List Byte)
  | putting (msg : List Byte) (resp : Process)
  | closing (resp : Process) (d : Teardown)
  | destroying (d : Teardown)
  | done
  deriving DecidableEq, Repr

/-- Where a client stands. -/
inductive ClientAt
  | opening
  | creating
  | testing (attempt : ℕ)
  | putting (attempt : ℕ)
  | getting (attempt : ℕ)
  | destroying (d : Teardown)
  | closing (d : Teardown)
  | done
  deriving DecidableEq, Repr

/-- The variables of a client. -/
structure Client where
  pc : ClientAt
  channel : Process
  msg : Message

/-- The names, the channels and the processes. -/
structure State where
  /-- The channel behind each name, by its owner. -/
  names : List Char → Option Process
  /-- The channel of each process, with where every process stands in its calls. -/
  channels : Process → MutexChannel.State Process
  /-- What `mc_destroy` destroyed of each channel. -/
  destroyed : Process → List Part
  server : ServerAt
  clients : Pid → Client

/-- What a process does. -/
inductive Move
  /-- Execute the next statement, up to the signal of a call. -/
  | step
  /-- Execute the signal, naming the sleeper that it wakes, and return. -/
  | signal (woken : Option Process)
  /-- Wake for no reason. -/
  | wake
  deriving DecidableEq, Repr

/-- `mc_create`. -/
def State.mcCreate (s : State) (owner : Process) (name : List Char) : State :=
  let old := s.channels owner
  { s with
    names := Function.update s.names name (some owner)
    channels := Function.update s.channels owner
      ⟨MutexChannel.mcCreate sizeofMsg owner.capacity old.rb.buf, .new, fun _ => .idle,
        old.itemPtr, [], []⟩
    destroyed := Function.update s.destroyed owner [] }

/-- The action on a channel of a process that executes a call there. -/
def Move.action (k : MutexChannel.State Process) (p : Process) (c : Call) : Move → Action Process
  | .step => if k.pc p = .idle then .call c else .run
  | .signal w => .signal w
  | .wake => .wake

/-- A channel changes. -/
def State.setChannel (s : State) (ch : Process) (k : MutexChannel.State Process) : State :=
  { s with channels := Function.update s.channels ch k }

/-- After its signal a call returns. -/
def Move.finish (m : Move) (ret : State → State) (s : State) : State :=
  match m with
  | .signal _ => ret s
  | .step | .wake => s

/-- A process goes on with a call. -/
def State.call (s : State) (p ch : Process) (c : Call) (m : Move) (ret : State → State) :
    Option State :=
  ((s.channels ch).next (p, m.action (s.channels ch) p c)).map fun k =>
    m.finish ret (s.setChannel ch k)

/-- One statement of `mc_destroy`, with the statement after it unless it returns. -/
def State.mcDestroy (s : State) (caller ch : Process) : Teardown → State × Option Teardown
  | .testing => (s, if caller = ch then some (.destroying .hasItems) else none)
  | .destroying part =>
    ({ s with destroyed := Function.update s.destroyed ch (s.destroyed ch ++ [part]) },
      match part with
      | .hasItems => some (.destroying .hasSpace)
      | .hasSpace => some (.destroying .lock)
      | .lock => some .unmapping)
  | .unmapping => (s, none)

/-- A statement outside the calls. -/
def Move.plain (m : Move) (t : State) : Option State :=
  match m with
  | .step => some t
  | .signal _ | .wake => none

/-- A client takes a step of its own. -/
def State.setClient (s : State) (pid : Pid) (c : Client) : State :=
  { s with clients := Function.update s.clients pid c }

/-- One step of the server. -/
def State.runServer (s : State) (m : Move) : Option State :=
  match s.server with
  | .creating => m.plain { s.mcCreate .server echoServiceName with server := .getting }
  | .getting =>
    s.call .server .server .get m fun t =>
      { t with server := .opening ((t.channels .server).itemPtr .server) }
  | .opening msg =>
    match s.names (senderName msg) with
    | none => m.plain { s with server := .destroying .testing }
    | some resp => m.plain { s with server := .putting msg resp }
  | .putting msg resp =>
    s.call .server resp (.put msg) m fun t => { t with server := .closing resp .testing }
  | .closing resp d =>
    match s.mcDestroy .server resp d with
    | (t, some d) => m.plain { t with server := .closing resp d }
    | (t, none) => m.plain { t with server := .getting }
  | .destroying d =>
    match s.mcDestroy .server .server d with
    | (t, some d) => m.plain { t with server := .destroying d }
    | (t, none) => m.plain { t with server := .done }
  | .done => none

/-- One step of a client that makes `niters` requests. -/
def State.runClient (niters : ℕ) (s : State) (pid : Pid) (m : Move) : Option State :=
  let c := s.clients pid
  match c.pc with
  | .opening =>
    match s.names echoServiceName with
    | none => m.plain (s.setClient pid { c with pc := .done })
    | some channel => m.plain (s.setClient pid { c with pc := .creating, channel := channel })
  | .creating =>
    m.plain ((s.mcCreate (.client pid) (respName pid)).setClient pid
      { c with pc := .testing 1, msg := { c.msg with sender := pid } })
  | .testing attempt =>
    if attempt ≤ niters then
      m.plain (s.setClient pid { c with
        pc := .putting attempt
        msg := { c.msg with msg := sprintf c.msg.msg (requestText c.msg.sender attempt) } })
    else m.plain (s.setClient pid { c with pc := .destroying .testing })
  | .putting attempt =>
    s.call (.client pid) c.channel (.put (recordBytes c.msg)) m fun t =>
      t.setClient pid { c with pc := .getting attempt }
  | .getting attempt =>
    s.call (.client pid) (.client pid) .get m fun t =>
      t.setClient pid { c with pc := .testing (attempt + 1) }
  | .destroying d =>
    match s.mcDestroy (.client pid) (.client pid) d with
    | (t, some d) => m.plain (t.setClient pid { c with pc := .destroying d })
    | (t, none) => m.plain (t.setClient pid { c with pc := .closing .testing })
  | .closing d =>
    match s.mcDestroy (.client pid) c.channel d with
    | (t, some d) => m.plain (t.setClient pid { c with pc := .closing d })
    | (t, none) => m.plain (t.setClient pid { c with pc := .done })
  | .done => none

/-- One step of a process. -/
def State.next (niters : Pid → ℕ) (s : State) : Process × Move → Option State
  | (.server, m) => s.runServer m
  | (.client pid, m) => s.runClient (niters pid) pid m

/-- Before any process runs. The channels are not created yet, and nobody is in them. -/
structure Started (s : State) : Prop where
  names_eq : ∀ name, s.names name = none
  channels_eq : ∀ p, Created sizeofMsg p.capacity (s.channels p)
  destroyed_eq : ∀ p, s.destroyed p = []
  server_eq : s.server = .creating
  clients_eq : ∀ pid, (s.clients pid).pc = .opening

/-- All runs of the service, with the number of requests of each client. -/
def service (niters : Pid → ℕ) : System State (Process × Move) := ofNext Started (State.next niters)

/-- The call that a process executes, with its channel. -/
def State.standsAt (s : State) : Process → Option (Process × Call)
  | .server =>
    match s.server with
    | .getting => some (.server, .get)
    | .putting msg resp => some (resp, .put msg)
    | _ => none
  | .client pid =>
    match (s.clients pid).pc with
    | .putting _ => some ((s.clients pid).channel, .put (recordBytes (s.clients pid).msg))
    | .getting _ => some (.client pid, .get)
    | _ => none

/-- A statement of `mc_put` on a channel of which a part was destroyed. -/
def PutsAfter (part : Part) (s : State) (l : Process × Move) : Prop :=
  ∃ ch item, s.standsAt l.1 = some (ch, .put item) ∧ part ∈ s.destroyed ch

/-- The signal of a call is the next statement. -/
def signaling : Pc → Bool
  | .signaling _ => true
  | _ => false

/-- A client that destroys a part of its channel does not do it between the unlock and the
signal of a put of the server. -/
def DestroysSignaled (part : Part) (s : State) : Process × Move → Prop
  | (.server, _) => True
  | (.client pid, _) =>
    (s.clients pid).pc = .destroying (.destroying part) →
      signaling ((s.channels (.client pid)).pc .server) = false

instance (part : Part) (s : State) : (l : Process × Move) → Decidable (DestroysSignaled part s l)
  | (.server, _) => .isTrue trivial
  | (.client pid, _) => inferInstanceAs (Decidable
    ((s.clients pid).pc = .destroying (.destroying part) →
      signaling ((s.channels (.client pid)).pc .server) = false))

end SistemasOperativos.EchoStatements
