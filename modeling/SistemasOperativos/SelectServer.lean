import SistemasOperativos.TransitionRuns
import SistemasOperativos.Connections
import SistemasOperativos.DenseArray

/-!
# The echo server over select

The server keeps its clients at the front of an array, their count, the bit set
that `select` watches and the highest descriptor in it. In a round it accepts
at most one connection, then scans the array and answers the clients whose bit
`select` left set. A client at its end is overwritten by the last one while the
scan goes on.
-/

namespace SistemasOperativos.SelectServer

open TransitionRuns Connections DenseArray

/-- `FD_SETSIZE`. -/
abbrev fdSetSize : ℕ := 1024

/-- `MAX_MSG_SIZE`, the size of an `echo_msg_t`. -/
abbrev maxMsgSize : ℕ := 256

/-- Where the server stands. -/
inductive Phase
  /-- `select`, at the top of `loop`. -/
  | selecting
  /-- The test of the listening descriptor in `process`. -/
  | testing (nready : ℤ)
  /-- The loop of `process`. -/
  | scanning (i : ℕ) (nready : ℤ)
  deriving DecidableEq, Repr

/-- The static variables, the descriptors and where the server stands. -/
structure State where
  clients : ℕ → ℕ
  /-- `maxclient_fd`. -/
  maxclientFd : ℕ
  maxclients : ℕ
  nclients : ℕ
  listenfd : ℕ
  rset : Finset ℕ
  allset : Finset ℕ
  net : Sockets
  phase : Phase

/-- What happens next. -/
inductive Action
  /-- `select` returns and leaves these bits set. -/
  | select (ready : Finset ℕ)
  /-- `accept` returns a descriptor, or fails. -/
  | accept (result : Option ℕ)
  /-- `read` returns. -/
  | read (r : Reading maxMsgSize)
  /-- A statement that asks nothing of the system. -/
  | run

/-- `add_client`, with none for -1. -/
def State.addClient (s : State) (cfd : ℕ) : Option State :=
  if s.nclients = s.maxclients then none
  else some { s with
    clients := Function.update s.clients s.nclients cfd
    nclients := s.nclients + 1
    maxclientFd := if cfd > s.maxclientFd then cfd else s.maxclientFd }

/-- `rem_client`. -/
def State.remClient (s : State) (cfd i : ℕ) : State :=
  { s with
    net := s.net.close cfd
    clients := moveLast s.clients s.nclients i
    nclients := s.nclients - 1
    allset := s.allset.erase cfd }

/-- `process_request`, on the message that was read. -/
def processRequest (n : Sockets) (cfd : ℕ) (request : Reading maxMsgSize) : Sockets :=
  n.write cfd request.variable

/-- The part of `process` after `accept` returned a descriptor. -/
def State.connected (s : State) (nready : ℤ) (cfd : ℕ) : State :=
  match if s.nclients = s.maxclients then none else s.addClient cfd with
  | none => { s with net := s.net.close cfd, phase := .selecting }
  | some s =>
    { s with
      allset := insert cfd s.allset
      phase := if nready - 1 = 0 then .selecting else .scanning 0 (nready - 1) }

/-- The descriptor that the next statement reads. -/
def State.reading (s : State) : Option ℕ :=
  match s.phase with
  | .scanning i nready =>
    if i < s.nclients ∧ nready > 0 ∧ s.clients i ∈ s.rset then some (s.clients i) else none
  | _ => none

/-- The body of the loop of `process` after `read` returned. -/
def State.answer (s : State) (cfd i : ℕ) (nready : ℤ) (r : Reading maxMsgSize) : State :=
  if r.Ended then { s.remClient cfd i with phase := .scanning (i + 1) (nready - 1) }
  else
    { s with
      net := processRequest (s.net.read cfd r.bytes) cfd r
      phase := .scanning (i + 1) nready }

/-- One statement of the server. `select` reports members of the set below the
limit that it was given, and `accept` the lowest descriptor that is not in use. -/
def State.next (s : State) : Action → Option State
  | .select ready =>
    if s.phase = .selecting ∧ ready ⊆ s.allset.filter (· < s.maxclientFd + 1) then
      some { s with rset := ready, phase := .testing ready.card }
    else none
  | .accept result =>
    match s.phase with
    | .testing nready =>
      if s.listenfd ∈ s.rset then
        match result with
        | none => some { s with phase := .selecting }
        | some cfd =>
          if cfd = lowest s.net.opened then
            (s.net.accept cfd).map fun n => { s with net := n }.connected nready cfd
          else none
      else none
    | _ => none
  | .read r =>
    match s.phase with
    | .scanning i nready => s.reading.map fun cfd => s.answer cfd i nready r
    | _ => none
  | .run =>
    match s.phase with
    | .selecting => none
    | .testing nready =>
      if s.listenfd ∈ s.rset then none else some { s with phase := .scanning 0 nready }
    | .scanning i nready =>
      if i < s.nclients ∧ nready > 0 then
        if s.clients i ∈ s.rset then none else some { s with phase := .scanning (i + 1) nready }
      else some { s with phase := .selecting }

/-- Descriptors in use when the server starts. -/
abbrev standard : Finset ℕ := {0, 1, 2}

/-- The server after `init` and the first statements of `loop`. -/
def initial : State where
  clients := fun _ => 0
  maxclientFd := lowest standard
  maxclients := fdSetSize - 4
  nclients := 0
  listenfd := lowest standard
  rset := ∅
  allset := {lowest standard}
  net := .start (insert (lowest standard) standard)
  phase := .selecting

/-- All runs of the server. -/
def server : System State Action := ofNext (fun s => s = initial) State.next

/-- The clients in the array. -/
def State.registered (s : State) : Finset ℕ := members s.clients s.nclients

/-- The steps of the server, with what each one found. -/
inductive Moves (s : State) : Action → State → Prop
  | selected (ready : Finset ℕ) : s.phase = .selecting →
      ready ⊆ s.allset.filter (· < s.maxclientFd + 1) →
      Moves s (.select ready) { s with rset := ready, phase := .testing ready.card }
  | refused (nready : ℤ) : s.phase = .testing nready → s.listenfd ∈ s.rset →
      Moves s (.accept none) { s with phase := .selecting }
  | accepted (nready : ℤ) (cfd : ℕ) (n : Sockets) : s.phase = .testing nready →
      cfd = lowest s.net.opened → s.net.accept cfd = some n →
      Moves s (.accept (some cfd)) ({ s with net := n }.connected nready cfd)
  | unasked (nready : ℤ) : s.phase = .testing nready → s.listenfd ∉ s.rset →
      Moves s .run { s with phase := .scanning 0 nready }
  | answered (i : ℕ) (nready : ℤ) (r : Reading maxMsgSize) : s.phase = .scanning i nready →
      i < s.nclients → s.reading = some (s.clients i) →
      Moves s (.read r) (s.answer (s.clients i) i nready r)
  | skipped (i : ℕ) (nready : ℤ) : s.phase = .scanning i nready →
      Moves s .run { s with phase := .scanning (i + 1) nready }
  | ended (i : ℕ) (nready : ℤ) : s.phase = .scanning i nready →
      Moves s .run { s with phase := .selecting }

/-- A descriptor that is read is the one at the index of the scan. -/
theorem reading_spec {s : State} {i : ℕ} {nready : ℤ} {cfd : ℕ} (hphase : s.phase = .scanning i nready)
    (h : s.reading = some cfd) : i < s.nclients ∧ cfd = s.clients i ∧ cfd ∈ s.rset := by
  simp only [State.reading, hphase, Option.ite_none_right_eq_some, Option.some.injEq] at h
  obtain ⟨⟨hi, -, hmem⟩, rfl⟩ := h
  exact ⟨hi, rfl, hmem⟩

/-- Every action is one of these steps. -/
theorem next_moves {s t : State} {a : Action} (h : s.next a = some t) : Moves s a t := by
  cases a with
  | select ready =>
    simp only [State.next, Option.ite_none_right_eq_some, Option.some.injEq] at h
    obtain ⟨⟨hphase, hready⟩, rfl⟩ := h
    exact .selected ready hphase hready
  | accept result =>
    simp only [State.next] at h
    split at h
    next nready hphase =>
      split at h
      next hlisten =>
        cases result with
        | none =>
          cases h
          exact .refused nready hphase hlisten
        | some cfd =>
          simp only [Option.ite_none_right_eq_some, Option.map_eq_some_iff] at h
          obtain ⟨hlowest, n, hn, rfl⟩ := h
          exact .accepted nready cfd n hphase hlowest hn
      next => cases h
    next => cases h
  | read r =>
    simp only [State.next] at h
    split at h
    next i nready hphase =>
      obtain ⟨cfd, hreading, rfl⟩ := Option.map_eq_some_iff.mp h
      obtain ⟨hi, rfl, -⟩ := reading_spec hphase hreading
      exact .answered i nready r hphase hi hreading
    next => cases h
  | run =>
    simp only [State.next] at h
    split at h
    next => cases h
    next nready hphase =>
      split at h
      next => cases h
      next hlisten =>
        cases h
        exact .unasked nready hphase hlisten
    next i nready hphase =>
      split at h
      · split at h
        · cases h
        · cases h
          exact .skipped i nready hphase
      · cases h
        exact .ended i nready hphase

end SistemasOperativos.SelectServer
