import SistemasOperativos.SelectServerRegistry
import SistemasOperativos.PollServer
import SistemasOperativos.EpollServer
import SistemasOperativos.EchoCallbacks

/-!
# The bytes that the echo servers send back

The four servers read into a message of fixed size and write the whole message
back, whatever the number of bytes that came. The traffic of a connection is
mirrored up to the first read that brings some bytes but not a whole message.
-/

namespace SistemasOperativos

open TransitionRuns Connections

namespace SelectServer

/-- The read of this action, if it is one, brings a whole message or nothing. -/
def Action.Whole : Action → Prop
  | .read r => r.Whole
  | _ => True

instance : (a : Action) → Decidable a.Whole
  | .read r => inferInstanceAs (Decidable r.Whole)
  | .select _ | .accept _ | .run => .isTrue trivial

/-- Registering a client is no traffic. -/
theorem addClient_net {s t : State} {cfd : ℕ} (h : s.addClient cfd = some t) : t.net = s.net := by
  simp only [State.addClient, Option.ite_none_left_eq_some, Option.some.injEq] at h
  obtain ⟨-, rfl⟩ := h
  rfl

/-- Every step leaves the traffic alone or echoes its read. -/
theorem serves {s t : State} {a : Action} (h : s.next a = some t) :
    s.net.Serves t.net maxMsgSize a.Whole := by
  cases next_moves h with
  | selected | refused | unasked | skipped | ended => exact .inl ⟨rfl, rfl, trivial⟩
  | accepted nready cfd n _ _ hn =>
    obtain ⟨-, -, hreceived, hsent⟩ := Sockets.accept_spec hn
    unfold State.connected
    split
    next => exact .inl ⟨hreceived, hsent, trivial⟩
    next u hu =>
      split at hu
      · cases hu
      · have hnet := addClient_net hu
        exact .inl ⟨(congrArg Sockets.received hnet).trans hreceived,
          (congrArg Sockets.sent hnet).trans hsent, trivial⟩
  | answered i nready r =>
    unfold State.answer
    split
    next hended => exact .inl ⟨rfl, rfl, .inl hended⟩
    next hstays => exact .inr ⟨_, r, rfl, hstays, Iff.rfl⟩

end SelectServer

namespace PollServer

/-- The read of the next statement, if it is one, brings a whole message or nothing. -/
def State.Whole (s : State) (a : Action) : Prop :=
  ∀ i, a = .run → s.reading = some i → (s.round.readings i).Whole

/-- Only a ready entry at the index of the scan is read. -/
theorem reading_scanning {s : State} {i : ℕ} {nready : ℤ} (hphase : s.phase = .scanning i nready) :
    s.reading = if nready > 0 ∧ i < s.nclients ∧ Ready (s.clients i).revents then some i
      else none := by
  rw [State.reading, hphase]

/-- Registering a client is no traffic. -/
theorem addClient_net {s t : State} {cfd : ℕ} (h : s.addClient cfd = some t) : t.net = s.net := by
  simp only [State.addClient, Option.ite_none_left_eq_some, Option.some.injEq] at h
  obtain ⟨-, rfl⟩ := h
  rfl

/-- Every step leaves the traffic alone or echoes its read. -/
theorem serves {s t : State} {a : Action} (h : s.next a = some t) :
    s.net.Serves t.net maxMsgSize (s.Whole a) := by
  cases next_moves h with
  | polled r => exact .inl ⟨rfl, rfl, fun i ha => nomatch ha⟩
  | refused nready hphase | unasked nready hphase =>
    refine .inl ⟨rfl, rfl, fun i _ hreading => ?_⟩
    rw [State.reading, hphase] at hreading
    cases hreading
  | skipped i nready hphase _ _ hready =>
    refine .inl ⟨rfl, rfl, fun j _ hreading => ?_⟩
    rw [reading_scanning hphase, if_neg fun hgo => hready hgo.2.2] at hreading
    cases hreading
  | ended i nready hphase hstop =>
    refine .inl ⟨rfl, rfl, fun j _ hreading => ?_⟩
    rw [reading_scanning hphase, if_neg fun hgo => hstop ⟨hgo.1, hgo.2.1⟩] at hreading
    cases hreading
  | accepted nready cfd n hphase _ _ hn =>
    obtain ⟨-, -, hreceived, hsent⟩ := Sockets.accept_spec hn
    have hwhole : s.Whole .run := fun i _ hreading => by
      rw [State.reading, hphase] at hreading
      cases hreading
    unfold State.connected
    split
    next => exact .inl ⟨hreceived, hsent, hwhole⟩
    next u hu =>
      have hnet := addClient_net hu
      exact .inl ⟨(congrArg Sockets.received hnet).trans hreceived,
        (congrArg Sockets.sent hnet).trans hsent, hwhole⟩
  | answered i nready hphase hmore hi hready =>
    have hreading : s.reading = some i := by
      rw [reading_scanning hphase, if_pos ⟨hmore, hi, hready⟩]
    have hwhole : s.Whole .run ↔ (s.round.readings i).Whole := by
      constructor
      · exact fun hw => hw i rfl hreading
      · intro hw j _ hj
        rw [hreading] at hj
        cases hj
        exact hw
    unfold State.answer
    dsimp only
    split
    next hended => exact .inl ⟨rfl, rfl, hwhole.mpr (.inl hended)⟩
    next hstays => exact .inr ⟨_, _, rfl, hstays, hwhole⟩

end PollServer

namespace EpollServer

/-- The read of this action, if it is one, brings a whole message or nothing. -/
def Action.Whole : Action → Prop
  | .read r => r.Whole
  | _ => True

instance : (a : Action) → Decidable a.Whole
  | .read r => inferInstanceAs (Decidable r.Whole)
  | .wait _ | .leave | .accept _ | .run => .isTrue trivial

/-- Taking a descriptor out of the epoll set is no traffic. -/
theorem remClient_net (s : State) (cfd : ℕ) : (s.remClient cfd).net = s.net := by
  unfold State.remClient
  split <;> rfl

/-- Registering a client is no traffic. -/
theorem addClient_net {s t : State} {cfd : ℕ} (h : s.addClient cfd = some t) : t.net = s.net := by
  simp only [State.addClient, Option.ite_none_left_eq_some, Option.some.injEq] at h
  obtain ⟨-, rfl⟩ := h
  rfl

/-- Every step leaves the traffic alone or echoes its read. -/
theorem serves {s t : State} {a : Action} (h : s.next a = some t) :
    s.net.Serves t.net maxMsgSize a.Whole := by
  cases next_moves h with
  | reported | leaves | refused | ignored | finished => exact .inl ⟨rfl, rfl, trivial⟩
  | accepted e rest cfd n _ _ hn =>
    obtain ⟨-, -, hreceived, hsent⟩ := Sockets.accept_spec hn
    unfold State.connected
    split
    next => exact .inl ⟨hreceived, hsent, trivial⟩
    next u hu =>
      have hnet := addClient_net hu
      exact .inl ⟨(congrArg Sockets.received hnet).trans hreceived,
        (congrArg Sockets.sent hnet).trans hsent, trivial⟩
  | answered e rest r =>
    unfold State.answer
    split
    next hended =>
      have hreceived : (s.remClient e.fd).net.received = s.net.received := by rw [remClient_net]
      have hsent : (s.remClient e.fd).net.sent = s.net.sent := by rw [remClient_net]
      exact .inl ⟨hreceived, hsent, .inl hended⟩
    next hstays => exact .inr ⟨_, r, rfl, hstays, Iff.rfl⟩
  | terminates e rest =>
    have hnet : ((s.remClient s.listenfd).remClient 0).net = s.net := by
      rw [remClient_net, remClient_net]
    have hreceived : ((s.remClient s.listenfd).remClient 0).net.received = s.net.received := by
      rw [hnet]
    have hsent : ((s.remClient s.listenfd).remClient 0).net.sent = s.net.sent := by rw [hnet]
    exact .inl ⟨hreceived, hsent, trivial⟩

end EpollServer

namespace EchoCallbacks

/-- The read of this action, if it is one, brings a whole message or nothing. -/
def Action.Whole : Action → Prop
  | .read r => r.Whole
  | _ => True

instance : (a : Action) → Decidable a.Whole
  | .read r => inferInstanceAs (Decidable r.Whole)
  | .wait _ | .run | .accept _ => .isTrue trivial

/-- Every step leaves the traffic alone or echoes its read. -/
theorem serves {s t : State} {a : Action} (h : s.next a = some t) :
    s.net.Serves t.net maxMsgSize a.Whole := by
  cases next_moves h with
  | waited | ran | refused => exact .inl ⟨rfl, rfl, trivial⟩
  | accepted call rest cfd n l _ hn =>
    obtain ⟨-, -, hreceived, hsent⟩ := Sockets.accept_spec hn
    exact .inl ⟨hreceived, hsent, trivial⟩
  | ended call rest r l _ hended => exact .inl ⟨rfl, rfl, .inl hended⟩
  | answered call rest cfd r _ hstays => exact .inr ⟨cfd, r, rfl, hstays, Iff.rfl⟩

end EchoCallbacks

namespace EchoServers

/-- A server whose steps leave the traffic alone or echo their reads keeps it
mirrored exactly along the runs whose reads fill the variable. -/
theorem mirrors_run_iff {σ α : Type*} {S : System σ α} (net : σ → Sockets) {size : ℕ}
    {whole : σ → α → Prop}
    (hserves : ∀ s a t, S.step s a t → (net s).Serves (net t) size (whole s a))
    {s t : σ} {trace : List (Transition σ α)} (hrun : S.Run s trace t) {opened : Finset ℕ}
    (hs : net s = .start opened) :
    (∀ x ∈ trace, (net x.target).Mirrors) ↔ ∀ x ∈ trace, whole x.source x.label := by
  have hstart : (net s).Mirrors := by
    rw [hs]
    exact fun _ => rfl
  exact hrun.forall_good_iff (I := fun s => (net s).Mirrors) hstart
    fun s a t hgood hstep => (hserves s a t hstep).mirrors_iff hgood

/-- Along a run of any of the four servers, at every point exactly the bytes of
every connection were sent back to it, if and only if every read that brought
bytes brought a whole message. -/
theorem echo_exact_iff_whole (select : SelectServer.State) (poll : PollServer.State)
    (epoll : EpollServer.State) (callbacks : EchoCallbacks.State) :
    (∀ trace t, SelectServer.server.init select → SelectServer.server.Run select trace t →
      ((∀ x ∈ trace, x.target.net.Mirrors) ↔ ∀ x ∈ trace, x.label.Whole)) ∧
    (∀ trace t, PollServer.server.init poll → PollServer.server.Run poll trace t →
      ((∀ x ∈ trace, x.target.net.Mirrors) ↔ ∀ x ∈ trace, x.source.Whole x.label)) ∧
    (∀ trace t, EpollServer.server.init epoll → EpollServer.server.Run epoll trace t →
      ((∀ x ∈ trace, x.target.net.Mirrors) ↔ ∀ x ∈ trace, x.label.Whole)) ∧
    (∀ trace t, EchoCallbacks.server.init callbacks → EchoCallbacks.server.Run callbacks trace t →
      ((∀ x ∈ trace, x.target.net.Mirrors) ↔ ∀ x ∈ trace, x.label.Whole)) := by
  refine ⟨fun trace t hs hrun => ?_, fun trace t hs hrun => ?_, fun trace t hs hrun => ?_,
    fun trace t hs hrun => ?_⟩
  · have hnet : select.net = .start (insert (lowest SelectServer.standard) SelectServer.standard) := by
      rw [hs]
      rfl
    exact mirrors_run_iff SelectServer.State.net (fun _ _ _ => SelectServer.serves) hrun hnet
  · exact mirrors_run_iff PollServer.State.net (fun _ _ _ => PollServer.serves) hrun hs.net_eq
  · exact mirrors_run_iff EpollServer.State.net (fun _ _ _ => EpollServer.serves) hrun hs.net_eq
  · obtain ⟨listenfd, epollFd, l, -, -, -, rfl⟩ := hs
    exact mirrors_run_iff EchoCallbacks.State.net (fun _ _ _ => EchoCallbacks.serves) hrun rfl

/-- A read that brings one byte into a message full of zeros. -/
def oneByte : Reading 256 := ⟨List.replicate 256 0, [1], length_zeros, length_one_le⟩

/-- A read that brings a whole message. -/
def message : Reading 256 :=
  ⟨List.replicate 256 0, List.replicate 256 0, length_zeros, length_zeros.le⟩

/-- The poll server after `init`. -/
def pollStart (r : Reading 256) : PollServer.State :=
  ⟨fun i => if i = 0 then ⟨3, PollServer.pollRdNorm, 0⟩ else ⟨0, 0, 0⟩, 1, 3,
    .start {0, 1, 2, 3}, .polling, ⟨fun _ => 0, none, fun _ => r⟩, ∅⟩

theorem pollStart_started (r : Reading 256) : PollServer.Started (pollStart r) :=
  ⟨show 3 ∉ ({0, 1, 2} : Finset ℕ) by decide, rfl, rfl, rfl, rfl, rfl⟩

/-- A client connects to the poll server and sends something. -/
def pollOne (r : Reading 256) : List PollServer.Action :=
  [.poll ⟨fun _ => PollServer.pollRdNorm, some 4, fun _ => r⟩, .run,
    .poll ⟨fun i => if i = 0 then 0 else PollServer.pollRdNorm, none, fun _ => r⟩, .run, .run]

/-- The epoll server after `init`. -/
def epollStart : EpollServer.State :=
  ⟨{3, 0}, 2, 3, 4, .start {0, 1, 2, 3, 4}, .waiting, false, []⟩

theorem epollStart_started : EpollServer.Started epollStart :=
  ⟨by decide, by decide, rfl, rfl, rfl, rfl, rfl, rfl⟩

/-- A client connects to the epoll server and sends something. -/
def epollOne (r : Reading 256) : List EpollServer.Action :=
  [.wait [⟨3, EpollServer.epollIn⟩], .accept (some 5), .run, .wait [⟨5, EpollServer.epollIn⟩],
    .read r]

/-- The callback server when it calls `ap_loop`. -/
def callbacksStart : EchoCallbacks.State where
  loop :=
    (((EchoCallbacks.serverInit 3).doAsync 0 .onNewConnection none).bind (·.next .loop)).getD
      (EchoCallbacks.serverInit 3)
  net := .start {0, 1, 2, 3, 4}

theorem callbacksStart_started : EchoCallbacks.Started callbacksStart :=
  ⟨3, 4, _, by decide, by decide, rfl, rfl⟩

/-- A client connects to the callback server and sends something. -/
def callbacksOne (r : Reading 256) : List EchoCallbacks.Action :=
  [.wait [⟨0, EventLoop.epollIn, 3⟩], .run, .accept (some 5), .run,
    .wait [⟨1, EventLoop.epollIn, 5⟩], .run, .read r]

/-- Traffic of different lengths is not mirrored. -/
theorem not_mirrors_of_length {n : Sockets} {c : ℕ}
    (h : (n.sent c).length ≠ (n.received c).length) : ¬ n.Mirrors := fun hm => h (by rw [hm c])

/-- A client sends one byte and gets a whole message back, whichever server it is. -/
theorem one_byte_echoed :
    (∃ s, SelectServer.server.Reachable s ∧ ¬ s.net.Mirrors) ∧
      (∃ s, PollServer.server.Reachable s ∧ ¬ s.net.Mirrors) ∧
      (∃ s, EpollServer.server.Reachable s ∧ ¬ s.net.Mirrors) ∧
      ∃ s, EchoCallbacks.server.Reachable s ∧ ¬ s.net.Mirrors := by
  refine ⟨?_, ?_, ?_, ?_⟩
  · have hstart : SelectServer.server.Reachable SelectServer.listening :=
      .start SelectServer.listening_eq
    obtain ⟨s, hs, hlength⟩ := System.Reachable.exists_of_any
      (SelectServer.connect_reachable hstart 4 (by decide +kernel))
      [.select {4}, .run, .read oneByte]
      (p := fun s => (s.net.sent 0).length ≠ (s.net.received 0).length) (by decide +kernel)
    exact ⟨s, hs, not_mirrors_of_length (of_decide_eq_true hlength)⟩
  · have hstart : PollServer.server.Reachable (pollStart oneByte) := .start (pollStart_started oneByte)
    obtain ⟨s, hs, hlength⟩ := hstart.exists_of_any (pollOne oneByte)
      (p := fun s => (s.net.sent 0).length ≠ (s.net.received 0).length) (by decide +kernel)
    exact ⟨s, hs, not_mirrors_of_length (of_decide_eq_true hlength)⟩
  · have hstart : EpollServer.server.Reachable epollStart := .start epollStart_started
    obtain ⟨s, hs, hlength⟩ := hstart.exists_of_any (epollOne oneByte)
      (p := fun s => (s.net.sent 0).length ≠ (s.net.received 0).length) (by decide +kernel)
    exact ⟨s, hs, not_mirrors_of_length (of_decide_eq_true hlength)⟩
  · have hstart : EchoCallbacks.server.Reachable callbacksStart := .start callbacksStart_started
    obtain ⟨s, hs, hlength⟩ := hstart.exists_of_any (callbacksOne oneByte)
      (p := fun s => (s.net.sent 0).length ≠ (s.net.received 0).length) (by decide +kernel)
    exact ⟨s, hs, not_mirrors_of_length (of_decide_eq_true hlength)⟩

/-- A client sends a whole message and gets it back. -/
theorem echo_exact_iff_whole_message :
    (∃ trace t, SelectServer.server.Run SelectServer.listening trace t ∧
      (t.net.received 0).length = 256 ∧ ∀ x ∈ trace, x.target.net.Mirrors) ∧
    (∃ trace t, PollServer.server.Run (pollStart message) trace t ∧
      (t.net.received 0).length = 256 ∧ ∀ x ∈ trace, x.target.net.Mirrors) ∧
    (∃ trace t, EpollServer.server.Run epollStart trace t ∧
      (t.net.received 0).length = 256 ∧ ∀ x ∈ trace, x.target.net.Mirrors) ∧
    (∃ trace t, EchoCallbacks.server.Run callbacksStart trace t ∧
      (t.net.received 0).length = 256 ∧ ∀ x ∈ trace, x.target.net.Mirrors) := by
  obtain ⟨hselect, hpoll, hepoll, hcallbacks⟩ :=
    echo_exact_iff_whole SelectServer.listening (pollStart message) epollStart callbacksStart
  refine ⟨?_, ?_, ?_, ?_⟩
  · obtain ⟨u, hfirst, hsecond⟩ :=
      SelectServer.connect_steps (s := SelectServer.listening) 4 (by decide +kernel)
    obtain ⟨trace, t, hrun, hwhole, hlength⟩ := @System.Run.exists_of_any _ _
      (fun s => s = SelectServer.initial) SelectServer.State.next (fun _ a => a.Whole) _
      (fun s => (s.net.received 0).length = 256) [.select {4}, .run, .read message]
      (SelectServer.connect SelectServer.listening 4) (by decide +kernel)
    have hall : SelectServer.server.Run SelectServer.listening _ t := (hrun.cons hsecond).cons hfirst
    refine ⟨_, t, hall, of_decide_eq_true hlength,
      (hselect _ t SelectServer.listening_eq hall).mpr ?_⟩
    exact List.forall_mem_cons.mpr ⟨trivial, List.forall_mem_cons.mpr ⟨trivial, hwhole⟩⟩
  · obtain ⟨trace, t, hrun, hwhole, hlength⟩ := @System.Run.exists_of_any _ _
      PollServer.Started PollServer.State.next
      (fun s _ => ∀ i ∈ s.reading, (s.round.readings i).Whole) _
      (fun s => (s.net.received 0).length = 256) (pollOne message) (pollStart message)
      (by decide +kernel)
    exact ⟨trace, t, hrun, of_decide_eq_true hlength,
      (hpoll trace t (pollStart_started message) hrun).mpr fun x hx i _ hi => hwhole x hx i hi⟩
  · obtain ⟨trace, t, hrun, hwhole, hlength⟩ := @System.Run.exists_of_any _ _
      EpollServer.Started EpollServer.State.next (fun _ a => a.Whole) _
      (fun s => (s.net.received 0).length = 256) (epollOne message) epollStart (by decide +kernel)
    exact ⟨trace, t, hrun, of_decide_eq_true hlength,
      (hepoll trace t epollStart_started hrun).mpr hwhole⟩
  · obtain ⟨trace, t, hrun, hwhole, hlength⟩ := @System.Run.exists_of_any _ _
      EchoCallbacks.Started EchoCallbacks.State.next (fun _ a => a.Whole) _
      (fun s => (s.net.received 0).length = 256) (callbacksOne message) callbacksStart
      (by decide +kernel)
    exact ⟨trace, t, hrun, of_decide_eq_true hlength,
      (hcallbacks trace t callbacksStart_started hrun).mpr hwhole⟩

end EchoServers

end SistemasOperativos
