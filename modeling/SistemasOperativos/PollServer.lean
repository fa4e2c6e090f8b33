import SistemasOperativos.TransitionRuns
import SistemasOperativos.Connections
import SistemasOperativos.DenseArray

/-!
# The echo server over poll

The server keeps its listening socket and its clients at the front of an array
of `struct pollfd`. `poll` rewrites the reported events of the entries in front
only. In a round the server accepts at most one connection, into the entry
behind the last one, whose reported events are what an earlier round left
there, and then scans the array.
-/

namespace SistemasOperativos.PollServer

open TransitionRuns Connections DenseArray

/-- `FOPEN_MAX`. -/
abbrev fopenMax : ℕ := 16

/-- `MAX_MSG_SIZE`, the size of an `echo_msg_t`. -/
abbrev maxMsgSize : ℕ := 256

/-- `POLLRDNORM`. -/
abbrev pollRdNorm : BitVec 16 := 0x040

/-- `POLLERR`. -/
abbrev pollErr : BitVec 16 := 0x008

/-- `struct pollfd`. -/
structure PollFd where
  fd : ℕ
  events : BitVec 16
  revents : BitVec 16

/-- The test for a ready client. -/
def Ready (revents : BitVec 16) : Prop := revents &&& (pollRdNorm ||| pollErr) ≠ 0

instance (revents : BitVec 16) : Decidable (Ready revents) := inferInstanceAs (Decidable (_ ≠ _))

/-- The test for a new connection. -/
def Connecting (revents : BitVec 16) : Prop := revents &&& pollRdNorm ≠ 0

instance (revents : BitVec 16) : Decidable (Connecting revents) :=
  inferInstanceAs (Decidable (_ ≠ _))

/-- What the system answers in one round: the events that `poll` reports for
each entry, what `accept` returns, and what a `read` for each entry brings. -/
structure Round where
  revents : ℕ → BitVec 16
  accepted : Option ℕ
  readings : ℕ → Reading maxMsgSize

/-- Where the server stands. -/
inductive Phase
  /-- `poll`, at the top of `loop`. -/
  | polling
  /-- The test of the first entry in `process`. -/
  | testing (nready : ℤ)
  /-- The loop of `process`. -/
  | scanning (i : ℕ) (nready : ℤ)
  deriving DecidableEq, Repr

/-- The static variables, the descriptors, where the server stands and what the
system answers in this round. -/
structure State where
  clients : ℕ → PollFd
  nclients : ℕ
  listenfd : ℕ
  net : Sockets
  phase : Phase
  round : Round
  /-- Descriptors that the last `poll` reported ready. -/
  reported : Finset ℕ

/-- What happens next. -/
inductive Action
  /-- `poll` returns, at the start of a round. -/
  | poll (r : Round)
  /-- The next statement of the round. -/
  | run

/-- `add_client`, with none for -1. -/
def State.addClient (s : State) (cfd : ℕ) : Option State :=
  if s.nclients = fopenMax then none
  else some { s with
    clients := Function.update s.clients s.nclients
      { s.clients s.nclients with fd := cfd, events := pollRdNorm }
    nclients := s.nclients + 1 }

/-- `rem_client`. -/
def State.remClient (s : State) (cfd i : ℕ) : State :=
  { s with
    net := s.net.close cfd
    clients := moveLast s.clients s.nclients i
    nclients := s.nclients - 1 }

/-- `process_request`, on the message that was read. -/
def processRequest (n : Sockets) (cfd : ℕ) (request : Reading maxMsgSize) : Sockets :=
  n.write cfd request.variable

/-- The entries after `poll`. -/
def State.polled (s : State) (r : Round) : ℕ → PollFd := fun i =>
  if i < s.nclients then { s.clients i with revents := r.revents i } else s.clients i

/-- The number of entries with reported events. -/
def State.nready (s : State) (r : Round) : ℕ :=
  ((Finset.range s.nclients).filter fun i => r.revents i ≠ 0).card

/-- The descriptors of the entries that `poll` reports ready. -/
def State.ready (s : State) (r : Round) : Finset ℕ :=
  ((Finset.range s.nclients).filter fun i => Ready (r.revents i)).image fun i => (s.clients i).fd

/-- The part of `process` after `accept` returned a descriptor. -/
def State.connected (s : State) (nready : ℤ) (cfd : ℕ) : State :=
  match s.addClient cfd with
  | none => { s with net := s.net.close cfd, phase := .polling }
  | some s =>
    { s with phase := if nready - 1 = 0 then .polling else .scanning 1 (nready - 1) }

/-- The body of the loop of `process` for a ready entry. -/
def State.answer (s : State) (i : ℕ) (nready : ℤ) : State :=
  let cfd := (s.clients i).fd
  let r := s.round.readings i
  if r.Ended then { s.remClient cfd i with phase := .scanning (i + 1) (nready - 1) }
  else
    { s with
      net := processRequest (s.net.read cfd r.bytes) cfd r
      phase := .scanning (i + 1) nready }

/-- The entry that the next statement reads from. -/
def State.reading (s : State) : Option ℕ :=
  match s.phase with
  | .scanning i nready =>
    if nready > 0 ∧ i < s.nclients ∧ Ready (s.clients i).revents then some i else none
  | _ => none

/-- One statement of a round. -/
def State.run (s : State) : Option State :=
  match s.phase with
  | .polling => none
  | .testing nready =>
    if Connecting (s.clients 0).revents then
      match s.round.accepted with
      | none => some { s with phase := .polling }
      | some cfd => (s.net.accept cfd).map fun n => { s with net := n }.connected nready cfd
    else some { s with phase := .scanning 1 nready }
  | .scanning i nready =>
    if nready > 0 ∧ i < s.nclients then
      if Ready (s.clients i).revents then some (s.answer i nready)
      else some { s with phase := .scanning (i + 1) nready }
    else some { s with phase := .polling }

/-- The start of a round. -/
def State.start (s : State) (r : Round) : State :=
  { s with
    clients := s.polled r
    phase := .testing (s.nready r)
    round := r
    reported := s.ready r }

/-- One statement of the server. -/
def State.next (s : State) : Action → Option State
  | .poll r => if s.phase = .polling then some (s.start r) else none
  | .run => s.run

/-- The server after `init`. The array is static, and the socket has a number of its own. -/
structure Started (s : State) : Prop where
  listenfd_new : s.listenfd ∉ ({0, 1, 2} : Finset ℕ)
  clients_eq : s.clients = fun i =>
    if i = 0 then ⟨s.listenfd, pollRdNorm, 0⟩ else ⟨0, 0, 0⟩
  nclients_eq : s.nclients = 1
  net_eq : s.net = .start {0, 1, 2, s.listenfd}
  phase_eq : s.phase = .polling
  reported_eq : s.reported = ∅

/-- All runs of the server. -/
def server : System State Action := ofNext Started State.next

/-- The steps of the server, with what each one found. -/
inductive Moves (s : State) : Action → State → Prop
  | polled (r : Round) : s.phase = .polling → Moves s (.poll r) (s.start r)
  | refused (nready : ℤ) : s.phase = .testing nready → Connecting (s.clients 0).revents →
      Moves s .run { s with phase := .polling }
  | accepted (nready : ℤ) (cfd : ℕ) (n : Sockets) : s.phase = .testing nready →
      Connecting (s.clients 0).revents → s.round.accepted = some cfd →
      s.net.accept cfd = some n → Moves s .run ({ s with net := n }.connected nready cfd)
  | unasked (nready : ℤ) : s.phase = .testing nready → ¬ Connecting (s.clients 0).revents →
      Moves s .run { s with phase := .scanning 1 nready }
  | answered (i : ℕ) (nready : ℤ) : s.phase = .scanning i nready → nready > 0 → i < s.nclients →
      Ready (s.clients i).revents → Moves s .run (s.answer i nready)
  | skipped (i : ℕ) (nready : ℤ) : s.phase = .scanning i nready → nready > 0 → i < s.nclients →
      ¬ Ready (s.clients i).revents → Moves s .run { s with phase := .scanning (i + 1) nready }
  | ended (i : ℕ) (nready : ℤ) : s.phase = .scanning i nready →
      ¬(nready > 0 ∧ i < s.nclients) → Moves s .run { s with phase := .polling }

/-- Every action is one of these steps. -/
theorem next_moves {s t : State} {a : Action} (h : s.next a = some t) : Moves s a t := by
  cases a with
  | poll r =>
    simp only [State.next, Option.ite_none_right_eq_some, Option.some.injEq] at h
    obtain ⟨hphase, rfl⟩ := h
    exact .polled r hphase
  | run =>
    simp only [State.next, State.run] at h
    split at h
    next => cases h
    next nready hphase =>
      split at h
      next hconnecting =>
        split at h
        next =>
          cases h
          exact .refused nready hphase hconnecting
        next cfd hcfd =>
          obtain ⟨n, hn, rfl⟩ := Option.map_eq_some_iff.mp h
          exact .accepted nready cfd n hphase hconnecting hcfd hn
      next hconnecting =>
        cases h
        exact .unasked nready hphase hconnecting
    next i nready hphase =>
      split at h
      next hgo =>
        split at h
        next hready =>
          cases h
          exact .answered i nready hphase hgo.1 hgo.2 hready
        next hready =>
          cases h
          exact .skipped i nready hphase hgo.1 hgo.2 hready
      next hstop =>
        cases h
        exact .ended i nready hphase hstop

end SistemasOperativos.PollServer
