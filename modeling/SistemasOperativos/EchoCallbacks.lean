import SistemasOperativos.Connections
import SistemasOperativos.EventLoopHandles

/-!
# The echo server over the event loop

The listening socket and every client have a handle. The callback of the first
registers new clients, and the callback of a client reads, and writes back or
closes its own handle. No handle is closed while another event of the batch is
about its descriptor.
-/

namespace SistemasOperativos.EchoCallbacks

open TransitionRuns Connections
open EventLoop (Event)

/-- `MAX_MSG_SIZE`, the size of an `echo_msg_t`. -/
abbrev maxMsgSize : ℕ := 256

/-- The callbacks of the server. -/
inductive Callback
  | onReadRequest
  | onNewConnection
  deriving DecidableEq, Repr

/-- The event loop and the descriptors. The callbacks use no context. -/
structure State where
  loop : EventLoop.State Callback Unit
  net : Sockets

/-- What happens next. -/
inductive Action
  /-- `epoll_wait` returns. -/
  | wait (batch : List Event)
  /-- `accept` returns a descriptor, or fails, and `on_new_connection` returns. -/
  | accept (result : Option ℕ)
  /-- `read` returns, and `on_read_request` returns. -/
  | read (r : Reading maxMsgSize)
  /-- The next event is processed. -/
  | run

/-- `server_init`. Its handle is the first one. -/
def serverInit (listenfd : ℕ) : EventLoop.State Callback Unit :=
  EventLoop.initial.registFd listenfd true

/-- `on_new_connection`. -/
def State.onNewConnection (s : State) (result : Option ℕ) : Option State :=
  match result with
  | none => some s
  | some cfd =>
    (s.net.accept cfd).bind fun n =>
      if cfd > 0 then
        ((s.loop.registFd cfd true).doAsync s.loop.allocated .onReadRequest none).map fun l =>
          ⟨l, n⟩
      else some { s with net := n }

/-- `on_read_request`. -/
def State.onReadRequest (s : State) (ah : ℕ) (r : Reading maxMsgSize) : Option State :=
  (s.loop.getfd ah).bind fun cfd =>
    if r.Ended then (s.loop.close ah).map fun l => { s with loop := l }
    else some { s with net := (s.net.read cfd r.bytes).write cfd r.variable }

/-- The callback returns. -/
def State.ret (s : State) : Option State := (s.loop.next .ret).map fun l => { s with loop := l }

/-- One step of the server. -/
def State.next (s : State) : Action → Option State
  | .wait batch => (s.loop.next (.wait batch)).map fun l => { s with loop := l }
  | .run => (s.loop.next .run).map fun l => { s with loop := l }
  | .accept result =>
    match s.loop.phase with
    | .calling ⟨.onNewConnection, _, _⟩ _ => (s.onNewConnection result).bind State.ret
    | _ => none
  | .read r =>
    match s.loop.phase with
    | .calling ⟨.onReadRequest, ah, _⟩ _ => (s.onReadRequest ah r).bind State.ret
    | _ => none

/-- The server when it calls `ap_loop`. The socket and the epoll set have numbers of their own. -/
def Started (s : State) : Prop := ∃ listenfd epollFd l,
  listenfd ∉ ({0, 1, 2, epollFd} : Finset ℕ) ∧ epollFd ∉ ({0, 1, 2} : Finset ℕ) ∧
  ((serverInit listenfd).doAsync 0 .onNewConnection none).bind (·.next .loop) = some l ∧
  s = ⟨l, .start {0, 1, 2, listenfd, epollFd}⟩

/-- All runs of the server. -/
def server : System State Action := ofNext Started State.next

/-- The traffic of a step, with the calls that it makes on the loop. -/
inductive Moves (s : State) : Action → State → Prop
  | waited (batch : List Event) (l : EventLoop.State Callback Unit) :
      s.loop.next (.wait batch) = some l → Moves s (.wait batch) { s with loop := l }
  | ran (l : EventLoop.State Callback Unit) :
      s.loop.next .run = some l → Moves s .run { s with loop := l }
  | refused (call : EventLoop.Call Callback Unit) (rest : List Event) :
      s.loop.phase = .calling call rest →
      Moves s (.accept none) { s with loop := { s.loop with phase := .processing rest } }
  | accepted (call : EventLoop.Call Callback Unit) (rest : List Event) (cfd : ℕ) (n : Sockets)
      (l : EventLoop.State Callback Unit) :
      s.loop.phase = .calling call rest → s.net.accept cfd = some n →
      (l = s.loop ∨
        (s.loop.registFd cfd true).doAsync s.loop.allocated .onReadRequest none = some l) →
      Moves s (.accept (some cfd)) ⟨{ l with phase := .processing rest }, n⟩
  | ended (call : EventLoop.Call Callback Unit) (rest : List Event) (r : Reading maxMsgSize)
      (l : EventLoop.State Callback Unit) :
      s.loop.phase = .calling call rest → r.Ended → s.loop.close call.ah = some l →
      Moves s (.read r) { s with loop := { l with phase := .processing rest } }
  | answered (call : EventLoop.Call Callback Unit) (rest : List Event) (cfd : ℕ)
      (r : Reading maxMsgSize) :
      s.loop.phase = .calling call rest → ¬ r.Ended →
      Moves s (.read r)
        ⟨{ s.loop with phase := .processing rest }, s.net.echo cfd r⟩

/-- When a callback returns, the rest of the batch is processed. -/
theorem ret_eq {s t : State} {call : EventLoop.Call Callback Unit} {rest : List Event}
    (hphase : s.loop.phase = .calling call rest) (h : s.ret = some t) :
    t = { s with loop := { s.loop with phase := .processing rest } } := by
  simp only [State.ret, EventLoop.State.next, hphase, Option.map_some, Option.some.injEq] at h
  exact h.symm

/-- What `on_new_connection` does when `accept` has failed. -/
theorem next_refused {s t : State} (h : s.next (.accept none) = some t) : ∃ ah ctx rest,
    s.loop.phase = .calling ⟨.onNewConnection, ah, ctx⟩ rest ∧
      t = { s with loop := { s.loop with phase := .processing rest } } := by
  simp only [State.next] at h
  split at h
  next ah ctx rest hphase =>
    obtain ⟨u, hu, hret⟩ := Option.bind_eq_some_iff.mp h
    cases hu
    exact ⟨ah, ctx, rest, hphase, ret_eq hphase hret⟩
  next => cases h

/-- What it does with a new descriptor: 0 is taken for an error. -/
theorem next_accepted {s t : State} {cfd : ℕ} (h : s.next (.accept (some cfd)) = some t) :
    ∃ ah ctx rest n l, s.loop.phase = .calling ⟨.onNewConnection, ah, ctx⟩ rest ∧
      s.net.accept cfd = some n ∧ t = ⟨{ l with phase := .processing rest }, n⟩ ∧
      (cfd = 0 ∧ l = s.loop ∨
        (s.loop.registFd cfd true).doAsync s.loop.allocated .onReadRequest none = some l) := by
  simp only [State.next] at h
  split at h
  next ah ctx rest hphase =>
    obtain ⟨u, hu, hret⟩ := Option.bind_eq_some_iff.mp h
    obtain ⟨n, hn, hu⟩ := Option.bind_eq_some_iff.mp hu
    split at hu
    next =>
      obtain ⟨l, hl, rfl⟩ := Option.map_eq_some_iff.mp hu
      have hsame : l.phase = .calling ⟨.onNewConnection, ah, ctx⟩ rest := by
        rw [EventLoop.doAsync_phase hl, (EventLoop.registFd_spec s.loop cfd true).2.2.1, hphase]
      exact ⟨ah, ctx, rest, n, l, hphase, hn, ret_eq (s := ⟨l, n⟩) hsame hret, .inr hl⟩
    next hzero =>
      cases hu
      exact ⟨ah, ctx, rest, n, s.loop, hphase, hn, ret_eq (s := { s with net := n }) hphase hret,
        .inl ⟨Nat.eq_zero_of_not_pos hzero, rfl⟩⟩
  next => cases h

/-- What `on_read_request` does: it answers, or closes its handle. -/
theorem next_read {s t : State} {r : Reading maxMsgSize} (h : s.next (.read r) = some t) :
    ∃ ah ctx rest, s.loop.phase = .calling ⟨.onReadRequest, ah, ctx⟩ rest ∧
      (r.Ended ∧ (∃ l, s.loop.close ah = some l ∧
          t = { s with loop := { l with phase := .processing rest } }) ∨
        ¬ r.Ended ∧ ∃ cfd,
          t = ⟨{ s.loop with phase := .processing rest }, s.net.echo cfd r⟩) := by
  simp only [State.next] at h
  split at h
  next ah ctx rest hphase =>
    obtain ⟨u, hu, hret⟩ := Option.bind_eq_some_iff.mp h
    obtain ⟨cfd, -, hu⟩ := Option.bind_eq_some_iff.mp hu
    refine ⟨ah, ctx, rest, hphase, ?_⟩
    split at hu
    next hended =>
      obtain ⟨l, hl, rfl⟩ := Option.map_eq_some_iff.mp hu
      have hsame : l.phase = .calling ⟨.onReadRequest, ah, ctx⟩ rest := by
        rw [EventLoop.close_phase hl, hphase]
      exact .inl ⟨hended, l, hl, ret_eq (s := { s with loop := l }) hsame hret⟩
    next hstays =>
      cases hu
      exact .inr ⟨hstays, cfd, ret_eq (s := { s with net := s.net.echo cfd r }) hphase hret⟩
  next => cases h

/-- Every action is one of these steps. -/
theorem next_moves {s t : State} {a : Action} (h : s.next a = some t) : Moves s a t := by
  cases a with
  | wait batch =>
    obtain ⟨l, hl, rfl⟩ := Option.map_eq_some_iff.mp h
    exact .waited batch l hl
  | run =>
    obtain ⟨l, hl, rfl⟩ := Option.map_eq_some_iff.mp h
    exact .ran l hl
  | accept result =>
    cases result with
    | none =>
      obtain ⟨ah, ctx, rest, hphase, rfl⟩ := next_refused h
      exact .refused _ rest hphase
    | some cfd =>
      obtain ⟨ah, ctx, rest, n, l, hphase, hn, rfl, hl⟩ := next_accepted h
      exact .accepted _ rest cfd n l hphase hn (hl.imp_left And.right)
  | read r =>
    obtain ⟨ah, ctx, rest, hphase, hread⟩ := next_read h
    rcases hread with ⟨hended, l, hl, rfl⟩ | ⟨hstays, cfd, rfl⟩
    · exact .ended _ rest r l hphase hended hl
    · exact .answered _ rest cfd r hphase hstays

/-- The loop below has closed no handle on a descriptor with an event that is left. -/
structure OwnHandles (s : State) : Prop where
  reachable : ((EventLoop.loop Callback Unit).restrict EventLoop.State.Closable).Reachable s.loop
  once : (s.loop.phase.rest.map Event.fd).Nodup
  /-- No event that is left is about the descriptor of the callback's own handle. -/
  apart : ∀ call rest h, s.loop.phase = .calling call rest → s.loop.heap call.ah = some h →
    ∀ e ∈ rest, e.fd ≠ h.fd

section Handles

variable {s t : State} {l : EventLoop.State Callback Unit}
  {call : EventLoop.Call Callback Unit} {rest : List Event}

/-- A callback returns and leaves the rest of the batch. -/
theorem OwnHandles.returned {n : Sockets}
    (h : ((EventLoop.loop Callback Unit).restrict EventLoop.State.Closable).Reachable l)
    (hphase : l.phase = .calling call rest) (honce : (rest.map Event.fd).Nodup) :
    OwnHandles ⟨{ l with phase := .processing rest }, n⟩ := by
  have hret : l.next .ret = some { l with phase := .processing rest } := by
    simp only [EventLoop.State.next, hphase]
  exact ⟨EventLoop.reachable_keeps h hret trivial, honce, fun _ _ _ he => by cases he⟩

/-- `on_new_connection` registers a handle and sets its callback. -/
theorem OwnHandles.registered (h : OwnHandles s) (hphase : s.loop.phase = .calling call rest)
    {cfd : ℕ} (hl : (s.loop.registFd cfd true).doAsync s.loop.allocated .onReadRequest none = some l) :
    ((EventLoop.loop Callback Unit).restrict EventLoop.State.Closable).Reachable l ∧
      l.phase = .calling call rest := by
  have hsame : (s.loop.registFd cfd true).phase = .calling call rest :=
    (EventLoop.registFd_spec s.loop cfd true).2.2.1.trans hphase
  have hregist : s.loop.next (.regist cfd true) = some (s.loop.registFd cfd true) := by
    simp only [EventLoop.State.next, hphase, EventLoop.Phase.user, if_true]
  have hasync : (s.loop.registFd cfd true).next
      (.async s.loop.allocated .onReadRequest none) = some l := by
    simp only [EventLoop.State.next, hsame, EventLoop.Phase.user, if_true, hl]
  have hregistered := EventLoop.reachable_keeps h.reachable hregist trivial
  refine ⟨EventLoop.reachable_keeps hregistered hasync trivial, ?_⟩
  rw [EventLoop.doAsync_phase hl, hsame]

/-- `on_read_request` closes its own handle. -/
theorem OwnHandles.closed (h : OwnHandles s) (hphase : s.loop.phase = .calling call rest)
    (hl : s.loop.close call.ah = some l) :
    ((EventLoop.loop Callback Unit).restrict EventLoop.State.Closable).Reachable l ∧
      l.phase = .calling call rest := by
  have hclose : s.loop.next (.close call.ah) = some l := by
    simp only [EventLoop.State.next, hphase, EventLoop.Phase.user, if_true, hl]
  have hclosable : s.loop.Closable (.close call.ah) := by
    intro ah hd he hlive e hmem _
    cases he
    rw [hphase] at hmem
    exact h.apart call rest hd hphase hlive e hmem
  exact ⟨h.reachable.next ⟨hclosable, hclose⟩, (EventLoop.close_phase hl).trans hphase⟩

/-- Every step closes at most the callback's own handle. -/
theorem OwnHandles.step {a : Action} (h : OwnHandles s) (hmove : Moves s a t) : OwnHandles t := by
  have hrest : ∀ {call rest}, s.loop.phase = .calling call rest → (rest.map Event.fd).Nodup := by
    intro call rest hphase
    have honce := h.once
    rw [hphase] at honce
    exact honce
  cases hmove with
  | waited batch l hl =>
    refine ⟨EventLoop.reachable_keeps h.reachable hl trivial, ?_, ?_⟩ <;>
      cases EventLoop.next_moves hl with
      | reported batch hreports => first | exact hreports.once | exact fun _ _ _ he => nomatch he
  | ran l hl =>
    have hreachable := EventLoop.reachable_keeps h.reachable hl trivial
    cases EventLoop.next_moves hl with
    | finished => exact ⟨hreachable, List.nodup_nil, fun _ _ _ he => nomatch he⟩
    | passed e rest hphase =>
      have honce := h.once
      rw [hphase] at honce
      exact ⟨hreachable, (List.nodup_cons.mp honce).2, fun _ _ _ he => nomatch he⟩
    | called e rest call hphase hready hah =>
      have honce := h.once
      rw [hphase] at honce
      obtain ⟨hnew, hnodup⟩ := List.nodup_cons.mp honce
      refine ⟨hreachable, hnodup, fun call' rest' hd hcalling hlive e' he' hfd => ?_⟩
      cases hcalling
      -- the handle is the one registered for the descriptor of the event
      have hreg := EventLoop.pending_reachable h.reachable e
        (by rw [hphase]; exact List.mem_cons_self) hready
      obtain ⟨hd', hlive', hfd'⟩ :=
        (EventLoop.inv_reachable h.reachable.of_restrict).registered e.fd e.ptr hreg
      rw [← hah] at hlive'
      have hsame : hd = hd' := Option.some.inj (hlive.symm.trans hlive')
      refine hnew (List.mem_map.mpr ⟨e', he', ?_⟩)
      rw [hfd, hsame, hfd']
  | refused call rest hphase => exact .returned h.reachable hphase (hrest hphase)
  | accepted call rest cfd n l hphase _ hl =>
    rcases hl with rfl | hl
    · exact .returned h.reachable hphase (hrest hphase)
    · obtain ⟨hreachable, hsame⟩ := h.registered hphase hl
      exact .returned hreachable hsame (hrest hphase)
  | ended call rest r l hphase _ hl =>
    obtain ⟨hreachable, hsame⟩ := h.closed hphase hl
    exact .returned hreachable hsame (hrest hphase)
  | answered call rest cfd r hphase => exact .returned h.reachable hphase (hrest hphase)

/-- In every run of the server, the loop reads only open handles and calls back only
registered ones. -/
theorem loop_safe (h : server.Reachable s) : s.loop.Safe := by
  have hown : OwnHandles s := by
    refine System.Reachable.invariant (S := server) (I := OwnHandles) ?_
      (fun s a t _ hs hstep => hs.step (next_moves hstep)) h
    rintro s ⟨listenfd, epollFd, l, -, -, hl, rfl⟩
    obtain ⟨u, hasync, hloop⟩ := Option.bind_eq_some_iff.mp hl
    have hstart : ((EventLoop.loop Callback Unit).restrict EventLoop.State.Closable).Reachable
        EventLoop.initial := .start rfl
    have hregist : EventLoop.initial.next (.regist listenfd true) = some (serverInit listenfd) := rfl
    have hset : (serverInit listenfd).next (.async 0 .onNewConnection none) = some u := by
      rw [← hasync]
      rfl
    have hreachable := EventLoop.reachable_keeps (EventLoop.reachable_keeps
      (EventLoop.reachable_keeps hstart hregist trivial) hset trivial) hloop trivial
    cases EventLoop.next_moves hloop
    exact ⟨hreachable, List.nodup_nil, fun _ _ _ he => nomatch he⟩
  exact EventLoop.safe_reachable hown.reachable

end Handles

end SistemasOperativos.EchoCallbacks
