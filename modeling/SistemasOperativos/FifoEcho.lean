import SistemasOperativos.EchoStatements
import SistemasOperativos.RecordPipes

/-!
# The echo service over named pipes

The server creates one FIFO and each client another one, under a name made of
its process number, and both open their own FIFO for reading and writing. Every
system call is one step. A write waits for space and is atomic, since a record
is shorter than PIPE_BUF; a read waits for data and never sees the end of the
file, since the reader has the FIFO open for writing too. SIGPIPE is ignored.
-/

namespace SistemasOperativos.FifoEcho

open TransitionRuns RecordPipes
open ByteMemory (Byte)
open EchoChannels (Pid Process Message snprintf sprintf requestText)
open EchoStatements (recordBytes readInt)

/-- `CHANNEL_NAME_MAX_SIZE`. -/
abbrev channelNameMaxSize : ℕ := 256

/-- `ECHO_SERVICE_NAME`. -/
abbrev echoServiceName : List Char := "echo_fifo_service".toList

/-- `ECHO_CLIENT_PREFIX`. -/
abbrev echoClientPrefix : List Char := "client_".toList

/-- `sizeof(echo_msg_t)`. -/
abbrev sizeofMsg : ℕ := 260

/-- The name of the FIFO of a client, from its process number. -/
def clientName (id : ℤ) : List Char :=
  snprintf channelNameMaxSize (echoClientPrefix ++ (toString id).toList)

/-- The name that a process gives to `create_fifo`. -/
def fifoName : Process → List Char
  | .server => echoServiceName
  | .client pid => clientName pid.val

/-- Where the server stands: `create_fifo`, the loop of `run`, and the end. -/
inductive ServerPc
  /-- `mkfifo`. -/
  | making
  /-- `open` with `O_RDWR`. -/
  | entering
  /-- `read` in the loop. -/
  | reading
  /-- `open_client_fifo`. -/
  | opening (msg : List Byte)
  /-- `write` of the response. -/
  | writing (msg : List Byte) (cfd : Process)
  /-- `close(cfd)`. -/
  | closing (cfd : Process)
  /-- `close(fd)`, after the loop was left. -/
  | leaving
  | done
  deriving DecidableEq, Repr

/-- Where a client stands. -/
inductive ClientPc
  /-- `open_server_fifo`. -/
  | opening
  /-- `mkfifo`. -/
  | making
  /-- `open` with `O_RDWR`. -/
  | entering
  /-- `close(sfd)`, when the FIFO could not be opened. -/
  | failing
  /-- The test of the loop and the `sprintf` of its body. -/
  | testing (attempt : ℕ)
  /-- `write` of the request. -/
  | writing (attempt : ℕ)
  /-- `read` of the response. -/
  | reading (attempt : ℕ)
  /-- `close(sfd)`. -/
  | closingServer
  /-- `close(cfd)`. -/
  | closingOwn
  /-- `unlink`. -/
  | unlinking
  | done
  deriving DecidableEq, Repr

/-- The variables of a client, with the records that it wrote and read. -/
structure Client where
  pc : ClientPc
  /-- The FIFO behind `sfd`. -/
  sfd : Process
  /-- The FIFO behind `cfd`. -/
  cfd : Process
  msg : Message
  /-- Records given to `write`, oldest first. -/
  requests : List (List Byte)
  /-- What each `read` returned, oldest first. -/
  responses : List (List Byte)

/-- The FIFOs in the file system and the processes. A FIFO is named by the process
that reads it. -/
structure State where
  /-- The FIFO at each path. -/
  names : List Char → Option Process
  /-- The processes that have each FIFO open. -/
  opens : Process → Finset Process
  /-- The bytes in each FIFO. -/
  pipes : Process → List Byte
  server : ServerPc
  clients : Pid → Client

/-- `mkfifo`. A FIFO that exists already is kept, and `EEXIST` is no error. -/
def State.mkfifo (s : State) (owner : Process) : State :=
  match s.names (fifoName owner) with
  | none => { s with names := Function.update s.names (fifoName owner) (some owner) }
  | some _ => s

/-- A process has a FIFO open. -/
def State.entered (s : State) (p fifo : Process) : State :=
  { s with opens := Function.update s.opens fifo (insert p (s.opens fifo)) }

/-- `open` with `O_WRONLY`. It waits until a process has the FIFO open for reading. -/
def State.openWrite (s : State) (p fifo : Process) : Option State :=
  if fifo ∈ s.opens fifo then some (s.entered p fifo) else none

/-- `close`. The last one to close a FIFO discards what is in it. -/
def State.close (s : State) (p fifo : Process) : State :=
  { s with
    opens := Function.update s.opens fifo ((s.opens fifo).erase p)
    pipes := if (s.opens fifo).erase p = ∅ then Function.update s.pipes fifo [] else s.pipes }

/-- `write`. Without a reader it fails with `EPIPE`, which no caller looks at. -/
def State.write (capacity : ℕ) (s : State) (fifo : Process) (bytes : List Byte) : Option State :=
  if fifo ∈ s.opens fifo then
    (RecordPipes.write capacity (s.pipes fifo) bytes).map fun pipe =>
      { s with pipes := Function.update s.pipes fifo pipe }
  else some s

/-- `read`. -/
def State.read (s : State) (fifo : Process) : Option (List Byte × State) :=
  (RecordPipes.read sizeofMsg (s.pipes fifo)).map fun r =>
    (r.1, { s with pipes := Function.update s.pipes fifo r.2 })

/-- One step of the server. -/
def State.runServer (capacity : ℕ) (s : State) : Option State :=
  match s.server with
  | .making => some { s.mkfifo .server with server := .entering }
  | .entering =>
    match s.names (fifoName .server) with
    | none => some { s with server := .done }
    | some fifo => some { s.entered .server fifo with server := .reading }
  | .reading => (s.read .server).map fun r =>
      { r.2 with server := if r.1.length = sizeofMsg then .opening r.1 else .reading }
  | .opening msg =>
    match s.names (clientName (readInt msg)) with
    | none => some { s with server := .leaving }
    | some fifo => (s.openWrite .server fifo).map fun s => { s with server := .writing msg fifo }
  | .writing msg cfd => (s.write capacity cfd msg).map fun s => { s with server := .closing cfd }
  | .closing cfd => some { s.close .server cfd with server := .reading }
  | .leaving => some { s.close .server .server with server := .done }
  | .done => none

/-- A client takes a step of its own. -/
def State.setClient (s : State) (pid : Pid) (c : Client) : State :=
  { s with clients := Function.update s.clients pid c }

/-- One step of a client that makes `niters` requests. -/
def State.runClient (capacity niters : ℕ) (s : State) (pid : Pid) : Option State :=
  let c := s.clients pid
  match c.pc with
  | .opening =>
    match s.names echoServiceName with
    | none => some (s.setClient pid { c with pc := .done })
    | some fifo => (s.openWrite (.client pid) fifo).map fun s =>
        s.setClient pid { c with pc := .making, sfd := fifo }
  | .making => some ((s.mkfifo (.client pid)).setClient pid { c with pc := .entering })
  | .entering =>
    match s.names (fifoName (.client pid)) with
    | none => some (s.setClient pid { c with pc := .failing })
    | some fifo => some ((s.entered (.client pid) fifo).setClient pid
        { c with pc := .testing 1, cfd := fifo, msg := { c.msg with sender := pid } })
  | .failing => some ((s.close (.client pid) c.sfd).setClient pid { c with pc := .done })
  | .testing attempt =>
    if attempt ≤ niters then
      some (s.setClient pid { c with
        pc := .writing attempt
        msg := { c.msg with msg := sprintf c.msg.msg (requestText c.msg.sender attempt) } })
    else some (s.setClient pid { c with pc := .closingServer })
  | .writing attempt => (s.write capacity c.sfd (recordBytes c.msg)).map fun s =>
      s.setClient pid { c with
        pc := .reading attempt
        requests := c.requests ++ [recordBytes c.msg] }
  | .reading attempt => (s.read c.cfd).map fun r =>
      r.2.setClient pid { c with
        pc := .testing (attempt + 1)
        responses := c.responses ++ [r.1] }
  | .closingServer => some ((s.close (.client pid) c.sfd).setClient pid { c with pc := .closingOwn })
  | .closingOwn => some ((s.close (.client pid) c.cfd).setClient pid { c with pc := .unlinking })
  | .unlinking =>
    some { s.setClient pid { c with pc := .done } with
      names := Function.update s.names (fifoName (.client pid)) none }
  | .done => none

/-- One step of a process, when only the given clients are started. -/
def State.next (started : Finset Pid) (capacity : ℕ) (niters : Pid → ℕ) (s : State) :
    Process → Option State
  | .server => s.runServer capacity
  | .client pid => if pid ∈ started then s.runClient capacity (niters pid) pid else none

/-- Before any process runs. Earlier runs may have left their FIFOs in the file
system, and the buffer for the text of a message holds anything. -/
structure Started (s : State) : Prop where
  names : ∀ name p, s.names name = some p → name = fifoName p
  opens : ∀ p, s.opens p = ∅
  pipes : ∀ p, s.pipes p = []
  server : s.server = .making
  clients : ∀ pid, (s.clients pid).pc = .opening ∧ (s.clients pid).msg.msg.length = 256 ∧
    (s.clients pid).requests = [] ∧ (s.clients pid).responses = []

/-- The runs of the server and of the started clients. -/
def service (started : Finset Pid) (capacity : ℕ) (niters : Pid → ℕ) : System State Process :=
  ofNext Started (State.next started capacity niters)

end SistemasOperativos.FifoEcho
