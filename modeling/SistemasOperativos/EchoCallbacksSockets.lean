import SistemasOperativos.EchoCallbacks

/-!
# The sockets of the callback server

Every open socket belongs to a live handle as long as no client leaves. When one
does, its handle is freed and its socket stays open, for `ap_close` takes the
descriptor out of the epoll set and does not close it.
-/

namespace SistemasOperativos.EchoCallbacks

open TransitionRuns Connections
open EventLoop (Event Handle)

/-- The server when it calls `ap_loop`, with the numbers of its socket and its epoll set. -/
def StartedWith (listenfd epollFd : ℕ) (s : State) : Prop :=
  listenfd ∉ ({0, 1, 2, epollFd} : Finset ℕ) ∧ epollFd ∉ ({0, 1, 2} : Finset ℕ) ∧
    ∃ l, ((serverInit listenfd).doAsync 0 .onNewConnection none).bind (·.next .loop) = some l ∧
      s = ⟨l, .start {0, 1, 2, listenfd, epollFd}⟩

/-- These are the states in which the server starts. -/
theorem started_iff {s : State} : Started s ↔ ∃ listenfd epollFd, StartedWith listenfd epollFd s := by
  constructor
  · rintro ⟨listenfd, epollFd, l, hlisten, hepoll, hl, rfl⟩
    exact ⟨listenfd, epollFd, hlisten, hepoll, l, hl, rfl⟩
  · rintro ⟨listenfd, epollFd, hlisten, hepoll, l, hl, rfl⟩
    exact ⟨listenfd, epollFd, l, hlisten, hepoll, hl, rfl⟩

/-- The open sockets, which are the open descriptors but for the standard ones
and the epoll set. -/
def State.sockets (s : State) (epollFd : ℕ) : Set ℕ :=
  {fd | fd ∈ s.net.opened ∧ fd ∉ ({0, 1, 2, epollFd} : Finset ℕ)}

/-- The descriptors of the live handles of clients. -/
def State.clientFds (s : State) : Set ℕ :=
  {fd | ∃ ah h, s.loop.heap ah = some h ∧ h.cb = some .onReadRequest ∧ h.fd = fd}

/-- A read finds that its client has left. -/
def Action.Ends : Action → Prop
  | .read r => r.Ended
  | _ => False

instance : DecidablePred Action.Ends
  | .read r => inferInstanceAs (Decidable r.Ended)
  | .wait _ | .accept _ | .run => inferInstanceAs (Decidable False)

/-- Every open socket has one live handle. -/
structure Owned (listenfd epollFd : ℕ) (s : State) : Prop where
  listening : s.loop.heap 0 = some ⟨listenfd, some .onNewConnection, none⟩
  started : 0 < s.loop.allocated
  fresh : ∀ ah, s.loop.allocated ≤ ah → s.loop.heap ah = none
  client : ∀ ah h, s.loop.heap ah = some h → ah ≠ 0 → h.cb = some .onReadRequest
  once : ∀ ah ah' h h', s.loop.heap ah = some h → s.loop.heap ah' = some h' → h.fd = h'.fd →
    ah = ah'
  /-- A callback that runs is the one of its handle. -/
  calling : ∀ call rest, s.loop.phase = .calling call rest →
    ∃ h, s.loop.heap call.ah = some h ∧ h.cb = some call.cb
  opened_iff : ∀ fd, fd ∈ s.net.opened ↔
    fd ∈ ({0, 1, 2, epollFd} : Finset ℕ) ∨ ∃ ah h, s.loop.heap ah = some h ∧ h.fd = fd
  apart : ∀ ah h, s.loop.heap ah = some h → h.fd ∉ ({0, 1, 2, epollFd} : Finset ℕ)

section Steps

variable {listenfd epollFd : ℕ} {s t : State} {l : EventLoop.State Callback Unit}

/-- Then nothing leaks. -/
theorem Owned.sockets_eq (h : Owned listenfd epollFd s) :
    s.sockets epollFd = insert listenfd s.clientFds := by
  ext fd
  constructor
  · rintro ⟨hopen, hbase⟩
    obtain ⟨ah, hd, hlive, rfl⟩ := ((h.opened_iff fd).mp hopen).resolve_left hbase
    rcases eq_or_ne ah 0 with rfl | hne
    · rw [h.listening] at hlive
      cases hlive
      exact .inl rfl
    · exact .inr ⟨ah, hd, hlive, h.client ah hd hlive hne, rfl⟩
  · have hlive_open {ah : ℕ} {hd : Handle Callback Unit} (hlive : s.loop.heap ah = some hd) :
        hd.fd ∈ s.sockets epollFd :=
      ⟨(h.opened_iff hd.fd).mpr (.inr ⟨ah, hd, hlive, rfl⟩), h.apart ah hd hlive⟩
    rintro (rfl | ⟨ah, hd, hlive, -, rfl⟩)
    · exact hlive_open h.listening
    · exact hlive_open hlive

/-- The handles stay, and the place in the program changes. -/
theorem Owned.moved (h : Owned listenfd epollFd s) {n : Sockets} (hheap : l.heap = s.loop.heap)
    (hallocated : l.allocated = s.loop.allocated) (hopened : n.opened = s.net.opened)
    (hcalling : ∀ call rest, l.phase = .calling call rest →
      ∃ hd, s.loop.heap call.ah = some hd ∧ hd.cb = some call.cb) :
    Owned listenfd epollFd ⟨l, n⟩ := by
  refine ⟨?_, ?_, ?_, ?_, ?_, ?_, ?_, ?_⟩
  · exact hheap ▸ h.listening
  · exact hallocated ▸ h.started
  · exact hheap ▸ hallocated ▸ h.fresh
  · exact hheap ▸ h.client
  · exact hheap ▸ h.once
  · exact hheap ▸ hcalling
  · exact hheap ▸ hopened ▸ h.opened_iff
  · exact hheap ▸ h.apart

/-- A step of `process` calls back with the callback of the handle. -/
theorem run_spec {m : EventLoop.State Callback Unit} (h : l.next .run = some m) :
    m.heap = l.heap ∧ m.allocated = l.allocated ∧ ∀ call rest, m.phase = .calling call rest →
      ∃ hd, l.heap call.ah = some hd ∧ hd.cb = some call.cb := by
  simp only [EventLoop.State.next] at h
  split at h
  next =>
    cases h
    exact ⟨rfl, rfl, fun _ _ he => by cases he⟩
  next e rest hphase =>
    simp only [EventLoop.State.processEvent] at h
    split at h
    next =>
      obtain ⟨hd, hlive, rfl⟩ := Option.map_eq_some_iff.mp h
      split
      next => exact ⟨rfl, rfl, fun _ _ he => by cases he⟩
      next cb hcb =>
        refine ⟨rfl, rfl, fun call rest' he => ?_⟩
        cases he
        exact ⟨hd, hlive, hcb⟩
    next =>
      cases h
      exact ⟨rfl, rfl, fun _ _ he => by cases he⟩
  next => cases h

/-- A new client gets a handle, and its socket belongs to it. -/
theorem Owned.accepted (h : Owned listenfd epollFd s) {cfd : ℕ} {n : Sockets}
    (hn : s.net.accept cfd = some n)
    (hl : (s.loop.registFd cfd true).doAsync s.loop.allocated .onReadRequest none = some l)
    (rest : List Event) : Owned listenfd epollFd ⟨{ l with phase := .processing rest }, n⟩ := by
  obtain ⟨hfree, hopened, -, -⟩ := Sockets.accept_spec hn
  obtain ⟨hregist, hallocated, -, -⟩ := EventLoop.registFd_spec s.loop cfd true
  obtain ⟨hd, hnew, hset⟩ := Option.map_eq_some_iff.mp hl
  have hheap : l.heap = Function.update s.loop.heap s.loop.allocated
      (some ⟨cfd, some .onReadRequest, none⟩) := by
    rw [hregist, Function.update_self] at hnew
    cases hnew
    rw [← hset, hregist, Function.update_idem]
  have hcount : l.allocated = s.loop.allocated + 1 := by rw [← hset, hallocated]
  have hlookup {ah : ℕ} {hd' : Handle Callback Unit} (hlive : l.heap ah = some hd') :
      ah = s.loop.allocated ∧ hd' = ⟨cfd, some .onReadRequest, none⟩ ∨
        ah ≠ s.loop.allocated ∧ s.loop.heap ah = some hd' := by
    rw [hheap] at hlive
    rcases eq_or_ne ah s.loop.allocated with rfl | hne
    · rw [Function.update_self] at hlive
      cases hlive
      exact .inl ⟨rfl, rfl⟩
    · rw [Function.update_of_ne hne] at hlive
      exact .inr ⟨hne, hlive⟩
  have hkeep {ah : ℕ} (hne : ah ≠ s.loop.allocated) : l.heap ah = s.loop.heap ah := by
    rw [hheap, Function.update_of_ne hne]
  have hunused {ah : ℕ} {hd' : Handle Callback Unit} (hlive : s.loop.heap ah = some hd') :
      hd'.fd ≠ cfd := by
    rintro rfl
    exact hfree ((h.opened_iff _).mpr (.inr ⟨ah, hd', hlive, rfl⟩))
  have hstarted := h.started
  refine ⟨?_, ?_, fun ah hah => ?_, fun ah hd' hlive hne => ?_,
    fun ah ah' hd₁ hd₂ hlive hlive' hfd => ?_, fun _ _ he => (nomatch he), fun fd => ?_,
    fun ah hd' hlive => ?_⟩
  · exact (hkeep hstarted.ne).trans h.listening
  · exact hcount ▸ Nat.succ_pos _
  · change l.allocated ≤ ah at hah
    exact (hkeep (by omega)).trans (h.fresh ah (by omega))
  · rcases hlookup hlive with ⟨-, rfl⟩ | ⟨-, hold⟩
    · rfl
    · exact h.client ah hd' hold hne
  · rcases hlookup hlive with ⟨rfl, rfl⟩ | ⟨-, hold⟩
    · rcases hlookup hlive' with ⟨rfl, -⟩ | ⟨-, hold'⟩
      · rfl
      · exact absurd hfd.symm (hunused hold')
    · rcases hlookup hlive' with ⟨rfl, rfl⟩ | ⟨-, hold'⟩
      · exact absurd hfd (hunused hold)
      · exact h.once ah ah' hd₁ hd₂ hold hold' hfd
  · change fd ∈ n.opened ↔ _
    rw [hopened, Finset.mem_insert, h.opened_iff, or_left_comm]
    refine or_congr_right ⟨?_, ?_⟩
    · rintro (rfl | ⟨ah, hd', hlive, rfl⟩)
      · refine ⟨s.loop.allocated, ⟨fd, some .onReadRequest, none⟩, ?_, rfl⟩
        change l.heap _ = _
        rw [hheap, Function.update_self]
      · have hne : ah ≠ s.loop.allocated := by
          rintro rfl
          rw [h.fresh _ le_rfl] at hlive
          cases hlive
        exact ⟨ah, hd', (hkeep hne).trans hlive, rfl⟩
    · rintro ⟨ah, hd', hlive, rfl⟩
      rcases hlookup hlive with ⟨-, rfl⟩ | ⟨-, hold⟩
      · exact .inl rfl
      · exact .inr ⟨ah, hd', hold, rfl⟩
  · rcases hlookup hlive with ⟨-, rfl⟩ | ⟨-, hold⟩
    · exact fun hmem => hfree ((h.opened_iff cfd).mpr (.inl hmem))
    · exact h.apart ah hd' hold

/-- The steps of the server keep the sockets with their handles, but for a read
that finds its client gone. -/
theorem Owned.next {a : Action} (h : Owned listenfd epollFd s) (hstep : s.next a = some t)
    (hstays : ¬ a.Ends) : Owned listenfd epollFd t := by
  cases a with
  | wait batch =>
    obtain ⟨l, hl, rfl⟩ := Option.map_eq_some_iff.mp hstep
    cases EventLoop.next_moves hl
    exact h.moved rfl rfl rfl fun _ _ he => nomatch he
  | run =>
    obtain ⟨l, hl, rfl⟩ := Option.map_eq_some_iff.mp hstep
    obtain ⟨hheap, hallocated, hcalling⟩ := run_spec hl
    exact h.moved hheap hallocated rfl hcalling
  | accept result =>
    cases result with
    | none =>
      obtain ⟨ah, ctx, rest, -, rfl⟩ := next_refused hstep
      exact h.moved rfl rfl rfl fun _ _ he => nomatch he
    | some cfd =>
      obtain ⟨ah, ctx, rest, n, l, -, hn, rfl, hl⟩ := next_accepted hstep
      rcases hl with ⟨rfl, -⟩ | hl
      · -- the standard input is open, so `accept` does not return its number
        obtain ⟨hfree, -, -, -⟩ := Sockets.accept_spec hn
        exact absurd ((h.opened_iff 0).mpr (.inl (by simp))) hfree
      · exact h.accepted hn hl rest
  | read r =>
    obtain ⟨ah, ctx, rest, -, ⟨hends, -⟩ | ⟨-, cfd, rfl⟩⟩ := next_read hstep
    · exact absurd hends hstays
    · exact h.moved rfl rfl rfl fun _ _ he => nomatch he

/-- A read that finds its client gone leaves the socket of the client open. -/
theorem Owned.leak {a : Action} (h : Owned listenfd epollFd s) (hstep : s.next a = some t)
    (hends : a.Ends) : t.sockets epollFd ≠ insert listenfd t.clientFds := by
  cases a with
  | wait | accept | run => exact hends.elim
  | read r =>
    obtain ⟨ah, ctx, rest, hphase, ⟨-, l, hl, rfl⟩ | ⟨hstays, -⟩⟩ := next_read hstep
    swap
    · exact absurd hends hstays
    obtain ⟨hd, hlive, hcb⟩ := h.calling _ _ hphase
    obtain ⟨hd', hlive', rfl⟩ := Option.map_eq_some_iff.mp hl
    change s.loop.heap ah = some hd at hlive
    rw [hlive] at hlive'
    cases hlive'
    have hheap : Function.update (s.loop.remClient hd.fd).heap ah none =
        Function.update s.loop.heap ah none := by
      rw [(EventLoop.remClient_spec s.loop hd.fd).1]
    intro heq
    have hopen : hd.fd ∈ s.net.opened := (h.opened_iff _).mpr (.inr ⟨ah, hd, hlive, rfl⟩)
    have hown := (Set.ext_iff.mp heq hd.fd).mp ⟨hopen, h.apart ah hd hlive⟩
    rcases hown with he | ⟨ah', hd', hlive', -, he⟩
    · -- the listening socket has another callback
      have hzero : ah = 0 := h.once ah 0 hd _ hlive h.listening he
      rw [hzero, h.listening] at hlive
      cases hlive
      cases hcb
    · change Function.update (s.loop.remClient hd.fd).heap ah none ah' = some hd' at hlive'
      rw [hheap] at hlive'
      rcases eq_or_ne ah' ah with rfl | hne
      · rw [Function.update_self] at hlive'
        cases hlive'
      · rw [Function.update_of_ne hne] at hlive'
        exact hne (h.once ah' ah hd' hd hlive' hlive he)

end Steps

/-- At the start there is one handle, for the listening socket. -/
theorem owned_start {listenfd epollFd : ℕ} {s : State} (hs : StartedWith listenfd epollFd s) :
    Owned listenfd epollFd s := by
  obtain ⟨hlisten, hepoll, l, hl, rfl⟩ := hs
  have hheap : l.heap = fun ah =>
      if ah = 0 then some ⟨listenfd, some .onNewConnection, none⟩ else none := by
    cases hl
    funext ah
    rcases eq_or_ne ah 0 with rfl | hne
    · rfl
    · rw [if_neg hne]
      exact (Function.update_of_ne hne _ _).trans (Function.update_of_ne hne _ _)
  have hallocated : l.allocated = 1 := by
    cases hl
    rfl
  have hphase : l.phase = .waiting := by
    cases hl
    rfl
  have honly {ah : ℕ} {hd : Handle Callback Unit} (hlive : l.heap ah = some hd) :
      ah = 0 ∧ hd = ⟨listenfd, some .onNewConnection, none⟩ := by
    simp only [hheap, Option.ite_none_right_eq_some, Option.some.injEq] at hlive
    exact ⟨hlive.1, hlive.2.symm⟩
  refine ⟨?_, ?_, fun ah hah => ?_, fun ah hd hlive hne => ?_,
    fun ah ah' hd hd' hlive hlive' _ => ?_, fun call rest he => ?_, fun fd => ?_,
    fun ah hd hlive => ?_⟩
  · rw [hheap]
    rfl
  · rw [hallocated]
    exact Nat.one_pos
  · change l.allocated ≤ ah at hah
    change l.heap ah = none
    rw [hheap]
    exact if_neg (by omega)
  · exact absurd (honly hlive).1 hne
  · rw [(honly hlive).1, (honly hlive').1]
  · rw [hphase] at he
    cases he
  · constructor
    · intro hmem
      simp only [Sockets.start, Finset.mem_insert, Finset.mem_singleton] at hmem ⊢
      by_cases he : fd = listenfd
      · exact .inr ⟨0, _, by rw [hheap]; rfl, he.symm⟩
      · left
        tauto
    · simp only [Sockets.start, Finset.mem_insert, Finset.mem_singleton]
      rintro (hbase | ⟨ah, hd, hlive, rfl⟩)
      · tauto
      · rw [(honly hlive).2]
        tauto
  · rw [(honly hlive).2]
    exact hlisten

/-- In a run of the server the open sockets are the listening one and those of
the live handles of clients exactly if no client leaves. -/
theorem sockets_owned_iff {listenfd epollFd : ℕ} {s t : State}
    {trace : List (Transition State Action)} (hs : StartedWith listenfd epollFd s)
    (hrun : server.Run s trace t) :
    (∀ x ∈ trace, x.target.sockets epollFd = insert listenfd x.target.clientFds) ↔
      ∀ x ∈ trace, ¬ x.label.Ends :=
  hrun.forall_good_iff_of_invariant (owned_start hs) (fun _ hI => hI.sockets_eq)
    (fun _ _ _ hI hstep hstays => hI.next hstep hstays)
    fun _ _ _ hI hstep hgood hends => hI.leak hstep hends hgood

section OneClient

/-- The server with its socket under number 3 and its epoll set under number 4. -/
def one : State where
  loop := { serverInit 3 with
    heap := Function.update (serverInit 3).heap 0 (some ⟨3, some .onNewConnection, none⟩)
    phase := .waiting }
  net := .start {0, 1, 2, 3, 4}

/-- It calls `ap_loop` next. -/
theorem one_started : StartedWith 3 4 one := ⟨by decide, by decide, _, rfl, rfl⟩

/-- A client connects under number 5, and its socket is reported. -/
def oneClient : List Action :=
  [.wait [⟨0, EventLoop.epollIn, 3⟩], .run, .accept (some 5), .run,
    .wait [⟨1, EventLoop.epollIn, 5⟩], .run]

/-- A read that finds the client gone. -/
def ending : Reading maxMsgSize :=
  ⟨List.replicate 256 0, [], length_zeros, length_nil_le⟩

/-- No client leaves before that read. -/
theorem oneClient_run : ∃ trace t, server.Run one trace t ∧ (∀ x ∈ trace, ¬ x.label.Ends) ∧
    (t.next (.read ending)).isSome = true := by
  have hrun := @System.Run.exists_of_any State Action Started State.next (fun _ a => ¬ a.Ends)
    inferInstance (fun t => (t.next (.read ending)).isSome) oneClient one
    (by decide +kernel)
  exact hrun

/-- A client connects, and nothing leaks. -/
theorem sockets_owned_iff_one_client : ∃ trace t, server.Run one trace t ∧
    (t.next (.read ending)).isSome = true ∧
    ∀ x ∈ trace, x.target.sockets 4 = insert 3 x.target.clientFds := by
  obtain ⟨trace, t, hrun, hstays, hread⟩ := oneClient_run
  exact ⟨trace, t, hrun, hread, (sockets_owned_iff one_started hrun).mpr hstays⟩

/-- A client connects and leaves, and its socket stays open without a handle. -/
theorem client_leaves_socket : ∃ s, server.init s ∧ StartedWith 3 4 s ∧
    ∃ trace t, server.Run s trace t ∧ t.sockets 4 ≠ insert 3 t.clientFds := by
  obtain ⟨trace, t, hrun, hstays, hread⟩ := oneClient_run
  obtain ⟨u, hstep⟩ := Option.isSome_iff_exists.mp hread
  have howned : Owned 3 4 t := by
    clear hread hstep
    induction hrun with
    | nil => exact owned_start one_started
    | snoc _ hlast ih =>
      exact (ih fun x hx => hstays x (List.mem_append_left _ hx)).next hlast
        (hstays _ (List.mem_append_right _ (List.mem_singleton.mpr rfl)))
  have hended : (Action.read ending).Ends := (rfl : ([] : List ByteMemory.Byte) = [])
  exact ⟨one, started_iff.mpr ⟨3, 4, one_started⟩, one_started, _, u, hrun.snoc hstep,
    howned.leak hstep hended⟩

end OneClient

end SistemasOperativos.EchoCallbacks
