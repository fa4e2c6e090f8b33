import SistemasOperativos.TransitionRuns
import SistemasOperativos.Connections

/-!
# The echo server over epoll

The server registers its listening socket, the standard input and every client
in one epoll set, and counts the registrations. A batch of events is processed
in order while descriptors are closed and their numbers used again. An event of
the standard input ends the service: the listening socket goes away, and the
loop leaves once the last client is gone.
-/

namespace SistemasOperativos.EpollServer

open TransitionRuns Connections

/-- `EPOLLIN`. -/
abbrev epollIn : BitVec 32 := 0x001

/-- `EPOLLERR`. -/
abbrev epollErr : BitVec 32 := 0x008

/-- `MAX_MSG_SIZE`, the size of an `echo_msg_t`. -/
abbrev maxMsgSize : ℕ := 256

/-- `struct epoll_event`. -/
structure Event where
  /-- `data.fd`. -/
  fd : ℕ
  events : BitVec 32
  deriving DecidableEq, Repr

/-- Some of these bits are set. -/
def Event.Has (e : Event) (mask : BitVec 32) : Prop := e.events &&& mask ≠ 0

instance (e : Event) (mask : BitVec 32) : Decidable (e.Has mask) :=
  inferInstanceAs (Decidable (_ ≠ _))

/-- Where the server stands. -/
inductive Phase
  /-- The top of `loop`. -/
  | waiting
  /-- The loop of `process`, with the events that are left. -/
  | processing (rest : List Event)
  /-- After `loop`. -/
  | left
  deriving DecidableEq, Repr

/-- The static variables, the epoll set, the descriptors and where the server stands. -/
structure State where
  /-- Descriptors registered in the epoll set. -/
  interest : Finset ℕ
  nclients : ℤ
  listenfd : ℕ
  /-- `epoll_fd`. -/
  epollFd : ℕ
  net : Sockets
  phase : Phase
  /-- Whether the standard input asked for the end. -/
  terminated : Bool
  /-- Descriptors that `EPOLL_CTL_DEL` did not find registered. -/
  failures : List ℕ

/-- What happens next. -/
inductive Action
  /-- `epoll_wait` returns. -/
  | wait (batch : List Event)
  /-- The loop finds no client left. -/
  | leave
  /-- `accept` returns a descriptor, or fails. -/
  | accept (result : Option ℕ)
  /-- `read` returns. -/
  | read (r : Reading maxMsgSize)
  /-- A statement that asks nothing of the system. -/
  | run

/-- `add_client`, with none for -1. -/
def State.addClient (s : State) (cfd : ℕ) : Option State :=
  if cfd ∈ s.interest then none
  else some { s with interest := insert cfd s.interest, nclients := s.nclients + 1 }

/-- `rem_client`. Its callers do not look at the result. -/
def State.remClient (s : State) (cfd : ℕ) : State :=
  if cfd ∈ s.interest then
    { s with interest := s.interest.erase cfd, nclients := s.nclients - 1 }
  else { s with failures := s.failures ++ [cfd] }

/-- `close`. A closed descriptor is not registered any more. -/
def State.close (s : State) (fd : ℕ) : State :=
  { s with net := s.net.close fd, interest := s.interest.erase fd }

/-- `process_request`, on the message that was read. -/
def processRequest (n : Sockets) (cfd : ℕ) (request : Reading maxMsgSize) : Sockets :=
  n.write cfd request.variable

/-- What an event asks for, in the order in which `process` tests. -/
inductive Event.Kind
  | connection
  | termination
  | request
  | nothing
  deriving DecidableEq, Repr

/-- The branch of `process` that an event takes. -/
def State.kind (s : State) (e : Event) : Event.Kind :=
  if e.fd = s.listenfd ∧ e.Has epollIn then .connection
  else if e.Has (epollIn ||| epollErr) then if e.fd = 0 then .termination else .request
  else .nothing

/-- The branch for a new connection, after `accept` returned a descriptor. -/
def State.connected (s : State) (cfd : ℕ) (rest : List Event) : State :=
  match s.addClient cfd with
  | none => { s.close cfd with phase := .waiting }
  | some s => { s with phase := .processing rest }

/-- The branch for the standard input. -/
def State.terminate (s : State) (rest : List Event) : State :=
  { ((s.remClient s.listenfd).remClient 0).close s.listenfd with
    terminated := true
    phase := .processing rest }

/-- The branch for a client, after `read` returned. -/
def State.answer (s : State) (cfd : ℕ) (rest : List Event) (r : Reading maxMsgSize) : State :=
  if r.Ended then { (s.remClient cfd).close cfd with phase := .processing rest }
  else { s with net := processRequest (s.net.read cfd r.bytes) cfd r, phase := .processing rest }

/-- What `epoll_wait` may report: registered descriptors, each at most once, no
more than asked for, and nothing but connections on the listening socket. -/
structure State.Reports (s : State) (batch : List Event) : Prop where
  registered : ∀ e ∈ batch, e.fd ∈ s.interest
  once : (batch.map Event.fd).Nodup
  listening : ∀ e ∈ batch, e.fd = s.listenfd → e.events = epollIn
  length_le : batch.length ≤ s.nclients

instance (s : State) (batch : List Event) : Decidable (s.Reports batch) :=
  decidable_of_iff ((∀ e ∈ batch, e.fd ∈ s.interest) ∧ (batch.map Event.fd).Nodup ∧
      (∀ e ∈ batch, e.fd = s.listenfd → e.events = epollIn) ∧ batch.length ≤ s.nclients)
    ⟨fun h => ⟨h.1, h.2.1, h.2.2.1, h.2.2.2⟩,
      fun h => ⟨h.registered, h.once, h.listening, h.length_le⟩⟩

/-- One statement of the server. `accept` fails on a closed socket. -/
def State.next (s : State) : Action → Option State
  | .wait batch =>
    if s.phase = .waiting ∧ s.nclients ≠ 0 ∧ s.Reports batch then
      some { s with phase := .processing batch }
    else none
  | .leave =>
    if s.phase = .waiting ∧ s.nclients = 0 then some { s with phase := .left } else none
  | .accept result =>
    match s.phase with
    | .processing (e :: rest) =>
      if s.kind e = .connection then
        match result with
        | none => some { s with phase := .waiting }
        | some cfd =>
          if s.listenfd ∈ s.net.opened then
            (s.net.accept cfd).map fun n => { s with net := n }.connected cfd rest
          else none
      else none
    | _ => none
  | .read r =>
    match s.phase with
    | .processing (e :: rest) =>
      if s.kind e = .request then some (s.answer e.fd rest r) else none
    | _ => none
  | .run =>
    match s.phase with
    | .processing [] => some { s with phase := .waiting }
    | .processing (e :: rest) =>
      match s.kind e with
      | .termination => some (s.terminate rest)
      | .nothing => some { s with phase := .processing rest }
      | _ => none
    | _ => none

/-- The server after `init`. The sockets of the service have numbers of their own. -/
structure Started (s : State) : Prop where
  listenfd_new : s.listenfd ∉ ({0, 1, 2, s.epollFd} : Finset ℕ)
  epollFd_new : s.epollFd ∉ ({0, 1, 2} : Finset ℕ)
  interest_eq : s.interest = {s.listenfd, 0}
  nclients_eq : s.nclients = 2
  net_eq : s.net = .start {0, 1, 2, s.listenfd, s.epollFd}
  phase_eq : s.phase = .waiting
  terminated_eq : s.terminated = false
  failures_eq : s.failures = []

/-- All runs of the server. -/
def server : System State Action := ofNext Started State.next

/-- The accepted connections that are not closed. -/
def State.connections (s : State) : Finset ℕ := s.net.opened \ {0, 1, 2, s.listenfd, s.epollFd}

/-- The steps of the server, with what each one found. -/
inductive Moves (s : State) : Action → State → Prop
  | reported (batch : List Event) : s.phase = .waiting → s.Reports batch →
      Moves s (.wait batch) { s with phase := .processing batch }
  | leaves : s.phase = .waiting → s.nclients = 0 → Moves s .leave { s with phase := .left }
  | refused (e : Event) (rest : List Event) : s.phase = .processing (e :: rest) →
      Moves s (.accept none) { s with phase := .waiting }
  | accepted (e : Event) (rest : List Event) (cfd : ℕ) (n : Sockets) :
      s.phase = .processing (e :: rest) → s.listenfd ∈ s.net.opened →
      s.net.accept cfd = some n →
      Moves s (.accept (some cfd)) ({ s with net := n }.connected cfd rest)
  | answered (e : Event) (rest : List Event) (r : Reading maxMsgSize) :
      s.phase = .processing (e :: rest) → s.kind e = .request →
      Moves s (.read r) (s.answer e.fd rest r)
  | terminates (e : Event) (rest : List Event) : s.phase = .processing (e :: rest) →
      s.kind e = .termination → Moves s .run (s.terminate rest)
  | ignored (e : Event) (rest : List Event) : s.phase = .processing (e :: rest) →
      Moves s .run { s with phase := .processing rest }
  | finished : s.phase = .processing [] → Moves s .run { s with phase := .waiting }

/-- Every action is one of these steps. -/
theorem next_moves {s t : State} {a : Action} (h : s.next a = some t) : Moves s a t := by
  cases a with
  | wait batch =>
    simp only [State.next, Option.ite_none_right_eq_some, Option.some.injEq] at h
    obtain ⟨⟨hphase, -, hreports⟩, rfl⟩ := h
    exact .reported batch hphase hreports
  | leave =>
    simp only [State.next, Option.ite_none_right_eq_some, Option.some.injEq] at h
    obtain ⟨⟨hphase, hnone⟩, rfl⟩ := h
    exact .leaves hphase hnone
  | accept result =>
    simp only [State.next] at h
    split at h
    next e rest hphase =>
      split at h
      next hkind =>
        cases result with
        | none =>
          cases h
          exact .refused e rest hphase
        | some cfd =>
          simp only [Option.ite_none_right_eq_some, Option.map_eq_some_iff] at h
          obtain ⟨hopen, n, hn, rfl⟩ := h
          exact .accepted e rest cfd n hphase hopen hn
      next => cases h
    next => cases h
  | read r =>
    simp only [State.next] at h
    split at h
    next e rest hphase =>
      split at h
      next hkind =>
        cases h
        exact .answered e rest r hphase hkind
      next => cases h
    next => cases h
  | run =>
    simp only [State.next] at h
    split at h
    next hphase =>
      cases h
      exact .finished hphase
    next e rest hphase =>
      split at h
      next hkind =>
        cases h
        exact .terminates e rest hphase hkind
      next =>
        cases h
        exact .ignored e rest hphase
      next => cases h
    next => cases h

end SistemasOperativos.EpollServer
