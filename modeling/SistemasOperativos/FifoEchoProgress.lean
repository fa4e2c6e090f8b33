import SistemasOperativos.FifoEchoRecords

/-!
# The echo service over named pipes completes

Every step takes one system call off the work that is left, so no run goes on
for ever. A run that cannot go on has no client that waits: every client that
found the service has all its responses.
-/

namespace SistemasOperativos.FifoEcho

open TransitionRuns RecordPipes
open ByteMemory (Byte)
open EchoChannels (Pid Process Message)
open EchoStatements (recordBytes readInt)

/-- The system calls that a client has still to make, and four of the server for
each request that it has still to write. -/
def ClientPc.left (niters : ℕ) : ClientPc → ℕ
  | .opening => 7 * niters + 7
  | .making => 7 * niters + 6
  | .entering => 7 * niters + 5
  | .testing k => 7 * (niters + 1 - k) + 4
  | .writing k => 7 * (niters + 1 - k) + 3
  | .reading k => 7 * (niters - k) + 5
  | .closingServer => 3
  | .closingOwn => 2
  | .unlinking | .failing => 1
  | .done => 0

/-- The system calls up to the next read of the server. -/
def ServerPc.left : ServerPc → ℕ
  | .opening _ => 3
  | .making | .writing _ _ => 2
  | .entering | .closing _ | .leaving => 1
  | .reading | .done => 0

/-- The work that is left, with four system calls for each request in the FIFO. -/
def workLeft (started : Finset Pid) (niters : Pid → ℕ) (s : State) : ℕ :=
  (∑ pid ∈ started, (s.clients pid).pc.left (niters pid)) +
    4 * ((s.pipes .server).length / sizeofMsg) + s.server.left

variable {niters : Pid → ℕ} {s t : State} {queue queue' : List Pid} {held held' : Option Pid}
  {started : Finset Pid} {capacity : ℕ}

theorem Inv.workLeft_eq (h : Inv niters s queue held) : workLeft started niters s =
    (∑ pid ∈ started, (s.clients pid).pc.left (niters pid)) + 4 * queue.length + s.server.left := by
  rw [workLeft, h.framed.count_eq (by decide), List.length_map]

/-- Only one client gets on with its work. -/
theorem sum_left (niters : Pid → ℕ) {pid : Pid} (hmem : pid ∈ started)
    (hother : ∀ q, q ≠ pid → t.clients q = s.clients q) :
    (∑ q ∈ started, (t.clients q).pc.left (niters q)) + (s.clients pid).pc.left (niters pid) =
      (∑ q ∈ started, (s.clients q).pc.left (niters q)) + (t.clients pid).pc.left (niters pid) := by
  rw [← Finset.add_sum_erase _ _ hmem, ← Finset.add_sum_erase _ _ hmem]
  have hrest : (∑ q ∈ started.erase pid, (t.clients q).pc.left (niters q)) =
      ∑ q ∈ started.erase pid, (s.clients q).pc.left (niters q) :=
    Finset.sum_congr rfl fun q hq => by rw [hother q (Finset.ne_of_mem_erase hq)]
  rw [hrest]
  omega

theorem setClient_pc (u : State) (pid : Pid) (c : Client) :
    ((u.setClient pid c).clients pid).pc = c.pc := by
  simp [State.setClient]

/-- A step of a client touches no other process. -/
theorem runClient_others {n : ℕ} {pid : Pid} (hstep : s.runClient capacity n pid = some t) :
    t.server = s.server ∧ ∀ q, q ≠ pid → t.clients q = s.clients q := by
  have hset : ∀ {u : State} {c : Client}, u.server = s.server → u.clients = s.clients →
      (u.setClient pid c).server = s.server ∧
        ∀ q, q ≠ pid → (u.setClient pid c).clients q = s.clients q := by
    intro u c hserver hclients
    refine ⟨hserver, fun q hq => ?_⟩
    simp [State.setClient, hq, hclients]
  have hwrite : ∀ {u : State} {fifo : Process} {bytes : List Byte},
      s.write capacity fifo bytes = some u → u.server = s.server ∧ u.clients = s.clients := by
    intro u fifo bytes hu
    unfold State.write at hu
    split at hu
    · obtain ⟨pipe, -, rfl⟩ := Option.map_eq_some_iff.mp hu
      exact ⟨rfl, rfl⟩
    · cases hu
      exact ⟨rfl, rfl⟩
  obtain ⟨-, -, hserver, hclients⟩ := mkfifo_fields s (.client pid)
  simp only [State.runClient] at hstep
  split at hstep
  · split at hstep
    · cases hstep
      exact hset rfl rfl
    · obtain ⟨u, hu, rfl⟩ := Option.map_eq_some_iff.mp hstep
      obtain ⟨-, hu⟩ := Option.ite_none_right_eq_some.mp hu
      cases hu
      exact hset rfl rfl
  · cases hstep
    exact hset hserver hclients
  · split at hstep <;> cases hstep <;> exact hset rfl rfl
  · cases hstep
    exact hset rfl rfl
  · split at hstep <;> cases hstep <;> exact hset rfl rfl
  · obtain ⟨u, hu, rfl⟩ := Option.map_eq_some_iff.mp hstep
    exact hset (hwrite hu).1 (hwrite hu).2
  · obtain ⟨r, hr, rfl⟩ := Option.map_eq_some_iff.mp hstep
    obtain ⟨r', -, rfl⟩ := Option.map_eq_some_iff.mp hr
    exact hset rfl rfl
  · cases hstep
    exact hset rfl rfl
  · cases hstep
    exact hset rfl rfl
  · cases hstep
    exact hset rfl rfl
  · cases hstep

/-- A client gets on by one system call. The one that writes a request leaves the
other four to the server. -/
theorem Inv.runClient_left (h : Inv niters s queue held) {pid : Pid}
    (hint : niters pid < 2 ^ 31) (hstep : s.runClient capacity (niters pid) pid = some t) :
    ∃ queue', Inv niters t queue' held ∧
      (t.clients pid).pc.left (niters pid) + 4 * queue'.length + 1 ≤
        (s.clients pid).pc.left (niters pid) + 4 * queue.length := by
  have hcount := (h.clients pid).count
  cases hpc : (s.clients pid).pc with
  | opening =>
    refine ⟨queue, h.clientOpening hpc hstep, ?_⟩
    simp only [State.runClient, hpc] at hstep
    split at hstep
    · cases hstep
      simp only [setClient_pc, ClientPc.left]
      omega
    · obtain ⟨u, -, rfl⟩ := Option.map_eq_some_iff.mp hstep
      simp only [setClient_pc, ClientPc.left]
      omega
  | making =>
    refine ⟨queue, h.clientMaking hpc hstep, ?_⟩
    simp only [State.runClient, hpc] at hstep
    cases hstep
    simp only [setClient_pc, ClientPc.left]
    omega
  | entering =>
    refine ⟨queue, h.clientEntering hpc hstep, ?_⟩
    simp only [State.runClient, hpc] at hstep
    split at hstep <;> cases hstep <;> simp only [setClient_pc, ClientPc.left] <;> omega
  | failing =>
    rw [hpc] at hcount
    exact hcount.elim
  | testing attempt =>
    refine ⟨queue, h.clientTesting hpc hint hstep, ?_⟩
    simp only [State.runClient, hpc] at hstep
    split at hstep <;> cases hstep <;> simp only [setClient_pc, ClientPc.left] <;> omega
  | writing attempt =>
    refine ⟨queue ++ [pid], h.clientWriting hpc hstep, ?_⟩
    rw [hpc] at hcount
    have hle := hcount.2
    simp only [State.runClient, hpc] at hstep
    obtain ⟨u, -, rfl⟩ := Option.map_eq_some_iff.mp hstep
    simp only [setClient_pc, ClientPc.left, List.length_append, List.length_singleton]
    omega
  | reading attempt =>
    refine ⟨queue, h.clientReading hpc hstep, ?_⟩
    rw [hpc] at hcount
    have hle := hcount.2
    simp only [State.runClient, hpc] at hstep
    obtain ⟨u, -, rfl⟩ := Option.map_eq_some_iff.mp hstep
    simp only [setClient_pc, ClientPc.left]
    omega
  | closingServer =>
    refine ⟨queue, h.clientClosing hpc hstep, ?_⟩
    simp only [State.runClient, hpc] at hstep
    cases hstep
    simp only [setClient_pc, ClientPc.left]
    omega
  | closingOwn =>
    refine ⟨queue, h.clientClosingOwn hpc hstep, ?_⟩
    simp only [State.runClient, hpc] at hstep
    cases hstep
    simp only [setClient_pc, ClientPc.left]
    omega
  | unlinking =>
    refine ⟨queue, h.clientUnlinking hpc hstep, ?_⟩
    simp only [State.runClient, hpc] at hstep
    cases hstep
    have hdone := setClient_pc s pid { s.clients pid with pc := .done }
    dsimp only at hdone ⊢
    rw [hdone]
    simp only [ClientPc.left]
    omega
  | done => simp [State.runClient, hpc] at hstep

/-- The server touches no client. -/
theorem runServer_clients (hstep : s.runServer capacity = some t) : t.clients = s.clients := by
  have hwrite : ∀ {u : State} {fifo : Process} {bytes : List Byte},
      s.write capacity fifo bytes = some u → u.clients = s.clients := by
    intro u fifo bytes hu
    unfold State.write at hu
    split at hu
    · obtain ⟨pipe, -, rfl⟩ := Option.map_eq_some_iff.mp hu
      rfl
    · cases hu
      rfl
  simp only [State.runServer] at hstep
  split at hstep
  · cases hstep
    exact (mkfifo_fields s .server).2.2.2
  · split at hstep <;> cases hstep <;> rfl
  · obtain ⟨r, hr, rfl⟩ := Option.map_eq_some_iff.mp hstep
    obtain ⟨r', -, rfl⟩ := Option.map_eq_some_iff.mp hr
    rfl
  · split at hstep
    · cases hstep
      rfl
    · obtain ⟨u, hu, rfl⟩ := Option.map_eq_some_iff.mp hstep
      obtain ⟨-, hu⟩ := Option.ite_none_right_eq_some.mp hu
      cases hu
      rfl
  · obtain ⟨u, hu, rfl⟩ := Option.map_eq_some_iff.mp hstep
    have hclients := hwrite hu
    exact hclients
  · cases hstep
    rfl
  · cases hstep
    rfl
  · cases hstep

/-- The server gets on by one system call. -/
theorem Inv.runServer_left (h : Inv niters s queue held) (hstep : s.runServer capacity = some t) :
    ∃ queue' held', Inv niters t queue' held' ∧
      4 * queue'.length + t.server.left + 1 = 4 * queue.length + s.server.left := by
  cases hpc : s.server with
  | making =>
    refine ⟨queue, held, h.serverMaking hpc hstep, ?_⟩
    simp only [State.runServer, hpc] at hstep
    cases hstep
    rfl
  | entering =>
    refine ⟨queue, held, h.serverEntering hpc hstep, ?_⟩
    have hmade : s.names (fifoName .server) = some .server := h.made (by simp [hpc])
    simp only [State.runServer, hpc, hmade] at hstep
    cases hstep
    rfl
  | reading =>
    obtain ⟨pid, rest, rfl, -, hserver, h'⟩ := h.serverReading hpc hstep
    refine ⟨rest, some pid, h', ?_⟩
    rw [hserver, List.length_cons]
    simp only [ServerPc.left]
    omega
  | opening msg =>
    refine ⟨queue, held, h.serverOpening hpc hstep, ?_⟩
    have hhand := (h.serverOpening hpc hstep).hand
    simp only [State.runServer, hpc] at hstep
    split at hstep
    · cases hstep
      exact hhand.elim
    · obtain ⟨u, -, rfl⟩ := Option.map_eq_some_iff.mp hstep
      rfl
  | writing msg cfd =>
    refine ⟨queue, none, h.serverWriting hpc hstep, ?_⟩
    simp only [State.runServer, hpc] at hstep
    obtain ⟨u, -, rfl⟩ := Option.map_eq_some_iff.mp hstep
    rfl
  | closing cfd =>
    refine ⟨queue, held, h.serverClosing hpc hstep, ?_⟩
    simp only [State.runServer, hpc] at hstep
    cases hstep
    rfl
  | leaving | done =>
    have hhand := h.hand
    simp only [Hand, hpc] at hhand

/-- Every step takes at least one system call off the work that is left. -/
theorem Inv.workLeft_lt (h : Inv niters s queue held) (hint : ∀ pid, niters pid < 2 ^ 31)
    {p : Process} (hstep : s.next started capacity niters p = some t) :
    workLeft started niters t < workLeft started niters s := by
  cases p with
  | server =>
    obtain ⟨queue', held', h', hless⟩ := h.runServer_left hstep
    rw [h.workLeft_eq, h'.workLeft_eq, runServer_clients hstep]
    omega
  | client pid =>
    obtain ⟨hmem, hrun⟩ := Option.ite_none_right_eq_some.mp hstep
    obtain ⟨hserver, hothers⟩ := runClient_others hrun
    obtain ⟨queue', h', hless⟩ := h.runClient_left (hint pid) hrun
    have hsum := sum_left niters hmem hothers
    rw [h.workLeft_eq, h'.workLeft_eq, hserver]
    omega

/-- A server that cannot go on waits for a request, and there is none. -/
theorem Inv.server_blocked (h : Inv niters s queue held) (hcap : sizeofMsg ≤ capacity)
    (hstep : s.runServer capacity = none) : s.server = .reading ∧ queue = [] ∧ held = none := by
  have hhand := h.hand
  cases hpc : s.server with
  | making | closing => simp [State.runServer, hpc] at hstep
  | entering =>
    simp only [State.runServer, hpc] at hstep
    split at hstep <;> cases hstep
  | reading =>
    simp only [State.runServer, hpc, State.read, Option.map_eq_none_iff] at hstep
    rw [h.framed.read_eq_none (by decide), List.map_eq_nil_iff] at hstep
    exact ⟨rfl, hstep, h.hand_none (.inr (.inr hpc))⟩
  | opening msg =>
    simp only [Hand, hpc] at hhand
    obtain ⟨pid, rfl, rfl⟩ := hhand
    obtain ⟨hname, hopen⟩ := h.sender_found (h.waits pid (by simp))
    simp [State.runServer, hpc, hname, State.openWrite, hopen] at hstep
  | writing msg cfd =>
    simp only [Hand, hpc] at hhand
    obtain ⟨pid, rfl, rfl, rfl⟩ := hhand
    obtain ⟨-, hopen⟩ := h.sender_found (h.waits pid (by simp))
    have hempty : s.pipes (.client pid) = [] := by rw [h.reply, if_neg fun hw => hw.2 (by simp)]
    have hroom := (framed_nil sizeofMsg).write_isSome (h.clients pid).length_request
      (by simpa using hcap)
    simp [State.runServer, hpc, State.write, hopen, hempty, hroom] at hstep
  | leaving | done => simp [Hand, hpc] at hhand

/-- While the server waits for a request that nobody wrote, a client that cannot go on
is done. -/
theorem Inv.client_blocked (h : Inv niters s [] none) (hserver : s.server = .reading)
    (hcap : sizeofMsg ≤ capacity) {pid : Pid}
    (hstep : s.runClient capacity (niters pid) pid = none) : (s.clients pid).pc = .done := by
  have hc := h.clients pid
  have hmade : s.names (fifoName .server) = some .server := h.made (by simp [hserver])
  have hopened := h.opened (by simp [hserver]) (by simp [hserver])
  cases hpc : (s.clients pid).pc with
  | opening =>
    have hname : s.names echoServiceName = some .server := hmade
    simp [State.runClient, hpc, hname, State.openWrite, hopened] at hstep
  | making | failing | closingServer | closingOwn | unlinking =>
    simp [State.runClient, hpc] at hstep
  | entering | testing =>
    simp only [State.runClient, hpc] at hstep
    split at hstep <;> cases hstep
  | writing attempt =>
    have hsfd := (hc.joined (by rw [hpc]; trivial)).1
    have hroom := h.framed.write_isSome hc.length_request (by simpa using hcap)
    have hrequest : recordBytes (s.clients pid).msg = (s.clients pid).request := rfl
    simp [State.runClient, hpc, hsfd, State.write, hopened, hrequest, hroom] at hstep
  | reading attempt =>
    have hwaits : (s.clients pid).pc.Awaiting := by
      rw [hpc]
      trivial
    have hcfd := (hc.entered hwaits.there.1).1
    have hframed : Framed sizeofMsg (s.pipes (.client pid)) [(s.clients pid).request] := by
      rw [h.reply, if_pos ⟨hwaits, by simp⟩]
      exact ⟨by simp, by simpa using hc.length_request⟩
    simp only [State.runClient, hpc, hcfd, State.read, Option.map_eq_none_iff] at hstep
    rw [hframed.read_eq_none (by decide)] at hstep
    cases hstep
  | done => rfl

/-- The client is done and has not made all its requests. -/
def Client.GaveUp (niters : ℕ) (c : Client) : Prop := c.pc = .done ∧ c.requests.length ≠ niters

/-- In a run, the client found no FIFO of the server when it opened it. -/
def Missed (pid : Pid) (trace : List (Transition State Process)) : Prop :=
  ∃ x ∈ trace, x.label = .client pid ∧ (x.source.clients pid).pc = .opening ∧
    x.source.names echoServiceName = none

/-- A client only gives up when it finds no FIFO of the server. -/
theorem Inv.gaveUp_step (h : Inv niters s queue held) {pid : Pid} {p : Process}
    (hstep : s.next started capacity niters p = some t)
    (hbefore : ¬ (s.clients pid).GaveUp (niters pid))
    (hafter : (t.clients pid).GaveUp (niters pid)) :
    p = .client pid ∧ (s.clients pid).pc = .opening ∧ s.names echoServiceName = none := by
  have hmoved : t.clients pid ≠ s.clients pid := fun heq => hbefore (heq ▸ hafter)
  cases p with
  | server => exact absurd (congrFun (runServer_clients hstep) pid) hmoved
  | client q =>
    obtain ⟨-, hrun⟩ := Option.ite_none_right_eq_some.mp hstep
    obtain rfl : pid = q := by
      by_contra hne
      exact hmoved ((runClient_others hrun).2 pid hne)
    have hcount := (h.clients pid).count
    obtain ⟨hdone, hless⟩ := hafter
    cases hpc : (s.clients pid).pc with
    | opening =>
      refine ⟨rfl, rfl, ?_⟩
      simp only [State.runClient, hpc] at hrun
      split at hrun
      next hnone => exact hnone
      next =>
        obtain ⟨u, -, rfl⟩ := Option.map_eq_some_iff.mp hrun
        rw [setClient_pc] at hdone
        cases hdone
    | unlinking =>
      rw [hpc] at hcount
      have hall : (s.clients pid).requests.length = niters pid := hcount
      simp only [State.runClient, hpc] at hrun
      cases hrun
      simp [State.setClient, hall] at hless
    | failing =>
      rw [hpc] at hcount
      exact hcount.elim
    | entering | testing =>
      simp only [State.runClient, hpc] at hrun
      split at hrun <;> cases hrun <;> rw [setClient_pc] at hdone <;> cases hdone
    | writing | reading =>
      simp only [State.runClient, hpc] at hrun
      obtain ⟨u, -, rfl⟩ := Option.map_eq_some_iff.mp hrun
      rw [setClient_pc] at hdone
      cases hdone
    | making | closingServer | closingOwn =>
      simp only [State.runClient, hpc] at hrun
      cases hrun
      rw [setClient_pc] at hdone
      cases hdone
    | done => simp [State.runClient, hpc] at hrun

/-- A client that has given up found no FIFO of the server. -/
theorem missed_of_gaveUp (hint : ∀ pid, niters pid < 2 ^ 31)
    {trace : List (Transition State Process)} (hs : Started s)
    (hrun : (service started capacity niters).Run s trace t) {pid : Pid}
    (hgave : (t.clients pid).GaveUp (niters pid)) : Missed pid trace := by
  have hstart : ¬ (s.clients pid).GaveUp (niters pid) := fun hgave => by
    have hpc := hgave.1
    rw [(hs.clients pid).1] at hpc
    cases hpc
  obtain ⟨x, hx, hreach, hstep, hbefore, hafter⟩ := hrun.exists_leaving
    (P := fun u => ¬ (u.clients pid).GaveUp (niters pid)) (System.Reachable.start hs)
    (fun _ _ _ hu hstep => hu.next hstep) hstart (not_not.mpr hgave)
  obtain ⟨queue, held, hI⟩ := inv_reachable hint hreach
  exact ⟨x, hx, hI.gaveUp_step hstep hbefore (not_not.mp hafter)⟩

end SistemasOperativos.FifoEcho
