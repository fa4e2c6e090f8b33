import SistemasOperativos.BoundedFifo
import SistemasOperativos.ByteMemory

/-!
# The echo service over memory channels

The server creates one request channel and each client one response channel of
capacity one, under a name made of its process number. The server takes a
message, opens the channel of its sender by name and puts the message there.
Every channel is a bounded first-in first-out queue. `mc_destroy` removes no
name: its `unlink` knows paths of files only.
-/

namespace SistemasOperativos.EchoChannels

open TransitionRuns BoundedFifo
open ByteMemory (Byte)

/-- A process number, which is a positive `int`. -/
abbrev Pid : Type := Fin (2 ^ 31)

/-- `CHANNEL_NAME_MAX_SIZE`. -/
abbrev channelNameMaxSize : ℕ := 128

/-- `ECHO_SERVICE_NAME`. -/
abbrev echoServiceName : List Char := "echo_memchannel_service".toList

/-- `ECHO_CLIENT_PREFIX`. -/
abbrev echoClientPrefix : List Char := "client_".toList

/-- `MAX_MSGS` of the server. -/
abbrev maxMsgs : ℕ := 1024

/-- `echo_msg_t`. -/
structure Message where
  sender : Pid
  msg : List Byte
  deriving DecidableEq, Repr

/-- `snprintf`, without the final zero. -/
def snprintf (size : ℕ) (text : List Char) : List Char := text.take (size - 1)

/-- `sprintf`. The bytes behind the final zero stay. -/
def sprintf (buf : List Byte) (text : List Char) : List Byte :=
  text.map (fun c => BitVec.ofNat 8 c.toNat) ++ 0 :: buf.drop (text.length + 1)

/-- The name of the response channel of a client. -/
def respName (pid : Pid) : List Char :=
  snprintf channelNameMaxSize (echoClientPrefix ++ (toString pid.val).toList)

/-- The text of a request. -/
def requestText (sender : Pid) (attempt : ℕ) : List Char :=
  "Hello_".toList ++ (toString sender.val).toList ++ '_' :: (toString attempt).toList

/-- The processes. Each of them owns one channel. -/
inductive Process
  | server
  | client (pid : Pid)
  deriving DecidableEq, Repr

/-- The capacity of the channel of a process. -/
def Process.capacity : Process → ℕ
  | .server => maxMsgs
  | .client _ => 1

/-- Where the server stands. -/
inductive ServerPc
  /-- `mc_create`. -/
  | creating
  /-- `mc_get`. -/
  | getting
  /-- `mc_open`. -/
  | opening (msg : Message)
  /-- `mc_put`. -/
  | putting (msg : Message) (resp : Process)
  /-- `mc_destroy` on the response channel. -/
  | closing (resp : Process) (name : List Char)
  /-- `mc_destroy` on the request channel. -/
  | destroying
  | done
  deriving DecidableEq, Repr

/-- Where a client stands. -/
inductive ClientPc
  /-- `mc_open`. -/
  | opening
  /-- `mc_create`. -/
  | creating
  /-- The test of the loop. -/
  | testing (attempt : ℕ)
  /-- `mc_put`. -/
  | putting (attempt : ℕ)
  /-- `mc_get`. -/
  | getting (attempt : ℕ)
  /-- `mc_destroy` on the response channel. -/
  | destroying
  /-- `mc_destroy` on the request channel. -/
  | closing
  | done
  deriving DecidableEq, Repr

/-- The variables of a client, and the messages that it put and got. -/
structure Client where
  pc : ClientPc
  channel : Process
  msg : Message
  resp : Message
  /-- Messages passed to `mc_put`, oldest first. -/
  requests : List Message
  /-- Messages that `mc_get` returned, oldest first. -/
  responses : List Message

/-- The names, the channels and the processes. -/
structure State where
  /-- The channel behind each name, by its owner. -/
  names : List Char → Option Process
  /-- The channel of each process. -/
  channels : Process → Fifo Message
  server : ServerPc
  clients : Pid → Client

/-- `mc_create`, on the names and the channels. -/
def State.mcCreate (s : State) (owner : Process) (name : List Char) : State :=
  { s with
    names := Function.update s.names name (some owner)
    channels := Function.update s.channels owner ⟨[], [], []⟩ }

/-- `mc_put`, which waits for space. -/
def State.mcPut (s : State) (channel : Process) (item : Message) : Option State :=
  (Fifo.next channel.capacity (s.channels channel) (.put item)).map fun f =>
    { s with channels := Function.update s.channels channel f }

/-- `mc_get`, which waits for an element. -/
def State.mcGet (s : State) (channel : Process) : Option (Message × State) :=
  match (s.channels channel).queue with
  | [] => none
  | item :: _ =>
    (Fifo.next channel.capacity (s.channels channel) .get).map fun f =>
      (item, { s with channels := Function.update s.channels channel f })

/-- A client takes a step of its own. -/
def State.setClient (s : State) (pid : Pid) (c : Client) : State :=
  { s with clients := Function.update s.clients pid c }

/-- One step of the server. -/
def State.runServer (s : State) : Option State :=
  match s.server with
  | .creating => some { s.mcCreate .server echoServiceName with server := .getting }
  | .getting => (s.mcGet .server).map fun r => { r.2 with server := .opening r.1 }
  | .opening msg =>
    match s.names (respName msg.sender) with
    | none => some { s with server := .destroying }
    | some resp => some { s with server := .putting msg resp }
  | .putting msg resp =>
    (s.mcPut resp msg).map fun s => { s with server := .closing resp (respName msg.sender) }
  | .closing _ _ => some { s with server := .getting }
  | .destroying => some { s with server := .done }
  | .done => none

/-- One step of a client that makes `niters` requests. -/
def State.runClient (niters : ℕ) (s : State) (pid : Pid) : Option State :=
  let c := s.clients pid
  match c.pc with
  | .opening =>
    match s.names echoServiceName with
    | none => some (s.setClient pid { c with pc := .done })
    | some channel => some (s.setClient pid { c with pc := .creating, channel := channel })
  | .creating =>
    some ((s.mcCreate (.client pid) (respName pid)).setClient pid
      { c with pc := .testing 1, msg := { c.msg with sender := pid } })
  | .testing attempt =>
    if attempt ≤ niters then
      some (s.setClient pid { c with
        pc := .putting attempt
        msg := { c.msg with msg := sprintf c.msg.msg (requestText c.msg.sender attempt) } })
    else some (s.setClient pid { c with pc := .destroying })
  | .putting attempt =>
    (s.mcPut c.channel c.msg).map fun s =>
      s.setClient pid { c with pc := .getting attempt, requests := c.requests ++ [c.msg] }
  | .getting attempt =>
    (s.mcGet (.client pid)).map fun r =>
      r.2.setClient pid { c with
        pc := .testing (attempt + 1)
        resp := r.1
        responses := c.responses ++ [r.1] }
  | .destroying => some (s.setClient pid { c with pc := .closing })
  | .closing => some (s.setClient pid { c with pc := .done })
  | .done => none

/-- One step of a process. -/
def State.next (niters : Pid → ℕ) (s : State) : Process → Option State
  | .server => s.runServer
  | .client pid => s.runClient (niters pid) pid

/-- Before any process runs. Variables may hold anything. -/
structure Started (s : State) : Prop where
  names_eq : ∀ name, s.names name = none
  channels_eq : ∀ p, s.channels p = ⟨[], [], []⟩
  server_eq : s.server = .creating
  clients_eq : ∀ pid, (s.clients pid).pc = .opening ∧ (s.clients pid).requests = [] ∧
    (s.clients pid).responses = []

/-- All runs of the service, with the number of requests of each client. -/
def service (niters : Pid → ℕ) : System State Process := ofNext Started (State.next niters)

/-- The message that the server took and has not put. -/
def ServerPc.hand : ServerPc → List Message
  | .opening msg | .putting msg _ => [msg]
  | _ => []

/-- The messages of a client that are in a channel or in the server's hand,
those that come back first before the others. -/
def State.inFlight (s : State) (pid : Pid) : List Message :=
  (s.channels (.client pid)).queue ++
    (s.server.hand ++ (s.channels .server).queue).filter fun m => m.sender = pid

end SistemasOperativos.EchoChannels
