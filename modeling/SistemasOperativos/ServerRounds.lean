import SistemasOperativos.EchoServers
import SistemasOperativos.PollServerRounds

/-!
# Which ready clients a round leaves for the next one

Both servers scan their registry while they remove from it, and go on behind the
entry that was moved into the gap. A ready client that moved is not read from in
its round.
-/

namespace SistemasOperativos.ServerRounds

open TransitionRuns Connections EchoServers

/-- A call of `process` comes to an end. It reads once from every client that was
registered and ready exactly if, for each of them, its index and the number of
ready clients before it that end add up to less than the number of clients that
the loop starts with. -/
theorem ready_clients_served_iff {s : SelectServer.State} {p : PollServer.State} {m n : ℤ}
    (hs : SelectServer.Entered s m) (outcome : ℕ → Reading SelectServer.maxMsgSize)
    (hp : PollServer.Entered p n) (hconnects : p.Connects) :
    ((∃ t trace, SelectServer.Call s t trace outcome) ∧
      ∀ t trace, SelectServer.Call s t trace outcome →
        (SelectServer.Served s trace ↔ s.InReach outcome)) ∧
    ((∃ q trace, PollServer.Call p q trace) ∧
      ∀ q trace, PollServer.Call p q trace → (PollServer.Served p trace ↔ p.InReach)) :=
  ⟨⟨hs.exists_call outcome, fun _ _ hcall => hcall.reads_iff hs⟩,
    hp.exists_call hconnects, fun _ _ hcall => hcall.reads_iff hp hconnects⟩

section ThreeClients

/-- A read that brings nothing. -/
def ending : Reading 256 := ⟨List.replicate 256 0, [], length_zeros, length_nil_le⟩

/-- Three clients connect to the poll server and are ready together. The reads of
the last round are given. -/
def pollActions (readings : ℕ → Reading 256) : List PollServer.Action :=
  let connecting (cfd : ℕ) : PollServer.Action :=
    .poll ⟨fun i => if i = 0 then PollServer.pollRdNorm else 0, some cfd, fun _ => ending⟩
  [connecting 4, .run, connecting 5, .run, connecting 6, .run,
    .poll ⟨fun i => if i = 0 then 0 else PollServer.pollRdNorm, none, readings⟩]

/-- The select server with three ready clients. It serves them all when the last
one ends, and not when the first one does. -/
theorem select_three_ready : ∃ s, SelectServer.server.Reachable s ∧
    decide (s.phase = .testing 3 ∧
      s.InReach (fun cfd => if cfd = 6 then ending else message) ∧
      ¬ s.InReach fun cfd => if cfd = 4 then ending else message) = true := by
  have hstart : SelectServer.server.Reachable SelectServer.listening :=
    .start SelectServer.listening_eq
  have hfirst := SelectServer.connect_reachable hstart 4 (by decide +kernel)
  have hsecond := SelectServer.connect_reachable hfirst 5 (by decide +kernel)
  have hthird := SelectServer.connect_reachable hsecond 6 (by decide +kernel)
  exact System.Reachable.exists_of_any hthird [.select {4, 5, 6}] (by decide +kernel)

/-- The poll server with three ready clients, the last of which ends. -/
theorem poll_three_ready_last : ∃ s, PollServer.server.Reachable s ∧
    decide (s.phase = .testing 3 ∧ ¬ PollServer.Connecting (s.clients 0).revents ∧ s.InReach) =
      true := by
  have hstart : PollServer.server.Reachable (pollStart ending) := .start (pollStart_started ending)
  exact hstart.exists_of_any (pollActions fun i => if i = 3 then ending else message)
    (by decide +kernel)

/-- The poll server with three ready clients, the first of which ends. -/
theorem poll_three_ready_first : ∃ s, PollServer.server.Reachable s ∧
    decide (s.phase = .testing 3 ∧ ¬ PollServer.Connecting (s.clients 0).revents ∧ ¬ s.InReach) =
      true := by
  have hstart : PollServer.server.Reachable (pollStart ending) := .start (pollStart_started ending)
  exact hstart.exists_of_any (pollActions fun i => if i = 1 then ending else message)
    (by decide +kernel)

/-- Three ready clients, the last of which ends. All are read from. -/
theorem ready_clients_served_iff_last_ends : ∃ s p outcome,
    (∀ t trace, SelectServer.Call s t trace outcome → SelectServer.Served s trace) ∧
      ∀ q trace, PollServer.Call p q trace → PollServer.Served p trace := by
  obtain ⟨s, hs, htest⟩ := select_three_ready
  obtain ⟨hphase, hreach, -⟩ := of_decide_eq_true htest
  obtain ⟨p, hp, htest⟩ := poll_three_ready_last
  obtain ⟨hphase', hquiet, hreach'⟩ := of_decide_eq_true htest
  obtain ⟨⟨-, hselect⟩, -, hpoll⟩ := ready_clients_served_iff
    (SelectServer.entered_reachable hs hphase) (fun cfd => if cfd = 6 then ending else message)
    (PollServer.entered_reachable hp hphase') fun hconnecting => absurd hconnecting hquiet
  exact ⟨s, p, _, fun t trace hcall => (hselect t trace hcall).mpr hreach,
    fun q trace hcall => (hpoll q trace hcall).mpr hreach'⟩

/-- Three ready clients, the first of which ends. In both servers a call comes to
an end, and has not read once from each of them. -/
theorem first_ends_leaves_client : (∃ s outcome, SelectServer.server.Reachable s ∧
      (∃ t trace, SelectServer.Call s t trace outcome) ∧
      ∀ t trace, SelectServer.Call s t trace outcome → ¬ SelectServer.Served s trace) ∧
    ∃ p, PollServer.server.Reachable p ∧ (∃ q trace, PollServer.Call p q trace) ∧
      ∀ q trace, PollServer.Call p q trace → ¬ PollServer.Served p trace := by
  constructor
  · obtain ⟨s, hs, htest⟩ := select_three_ready
    obtain ⟨hphase, -, hreach⟩ := of_decide_eq_true htest
    have hentered := SelectServer.entered_reachable hs hphase
    exact ⟨s, _, hs, hentered.exists_call _,
      fun t trace hcall hserved => hreach ((hcall.reads_iff hentered).mp hserved)⟩
  · obtain ⟨p, hp, htest⟩ := poll_three_ready_first
    obtain ⟨hphase, hquiet, hreach⟩ := of_decide_eq_true htest
    have hentered := PollServer.entered_reachable hp hphase
    have hconnects : p.Connects := fun hconnecting => absurd hconnecting hquiet
    exact ⟨p, hp, hentered.exists_call hconnects,
      fun q trace hcall hserved => hreach ((hcall.reads_iff hentered hconnects).mp hserved)⟩

end ThreeClients

end SistemasOperativos.ServerRounds
