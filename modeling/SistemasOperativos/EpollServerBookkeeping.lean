import SistemasOperativos.EpollServer

/-!
# The bookkeeping of the epoll server

The registrations are the open connections and, until the end is asked for, the
listening socket and the standard input. The counter counts them, and the
events still to be processed name registered descriptors, but for a connection
event on the listening socket that the same batch has closed.
-/

namespace SistemasOperativos.EpollServer

open TransitionRuns Connections

/-- Descriptors of the service that are registered until the end is asked for. -/
def State.service (s : State) : Finset ℕ := if s.terminated then ∅ else {s.listenfd, 0}

/-- Events that are left in a batch. -/
structure Pending (s : State) (rest : List Event) : Prop where
  once : (rest.map Event.fd).Nodup
  registered : ∀ e ∈ rest, e.fd ∈ s.interest ∨ e.fd = s.listenfd ∧ s.terminated = true
  listening : ∀ e ∈ rest, e.fd = s.listenfd → e.events = epollIn

/-- Registrations, counter and open descriptors agree. -/
structure Inv (s : State) : Prop where
  listenfd_new : s.listenfd ∉ ({0, 1, 2, s.epollFd} : Finset ℕ)
  base_open : {0, 1, 2, s.epollFd} ⊆ s.net.opened
  listening : s.listenfd ∈ s.net.opened ↔ s.terminated = false
  interest_eq : s.interest = s.connections ∪ s.service
  nclients_eq : s.nclients = s.interest.card
  failures_eq : s.failures = []
  pending : ∀ rest, s.phase = .processing rest → Pending s rest
  left : s.phase = .left → s.nclients = 0

/-- The descriptors of the connections. -/
theorem mem_connections {s : State} {fd : ℕ} : fd ∈ s.connections ↔
    fd ∈ s.net.opened ∧ fd ≠ s.listenfd ∧ fd ∉ ({0, 1, 2, s.epollFd} : Finset ℕ) := by
  simp only [State.connections, Finset.mem_sdiff, Finset.mem_insert, Finset.mem_singleton]
  tauto

/-- The descriptors of the service. -/
theorem mem_service {s : State} {fd : ℕ} :
    fd ∈ s.service ↔ s.terminated = false ∧ (fd = s.listenfd ∨ fd = 0) := by
  unfold State.service
  cases s.terminated <;> simp

section Steps

variable {s : State}

/-- Only open descriptors are registered. -/
theorem Inv.interest_open (h : Inv s) : s.interest ⊆ s.net.opened := by
  intro fd hfd
  rw [h.interest_eq, Finset.mem_union] at hfd
  rcases hfd with hfd | hfd
  · exact (mem_connections.mp hfd).1
  · obtain ⟨hrunning, rfl | rfl⟩ := mem_service.mp hfd
    · exact h.listening.mpr hrunning
    · exact h.base_open (by simp)

/-- A registration is removed once. -/
theorem remClient_eq {cfd : ℕ} (hmem : cfd ∈ s.interest) : s.remClient cfd =
    { s with interest := s.interest.erase cfd, nclients := s.nclients - 1 } := if_pos hmem

/-- The count after a registration is removed. -/
theorem Inv.count_erase (h : Inv s) {cfd : ℕ} (hmem : cfd ∈ s.interest) :
    s.nclients - 1 = (s.interest.erase cfd).card := by
  have hpos := Finset.card_pos.mpr ⟨cfd, hmem⟩
  rw [h.nclients_eq, Finset.card_erase_of_mem hmem]
  omega

/-- Nothing but the place in the program and the traffic changes. -/
theorem Inv.moved (h : Inv s) (n : Sockets) (hn : n.opened = s.net.opened) (phase : Phase)
    (hpending : ∀ rest, phase = .processing rest → Pending s rest)
    (hleft : phase = .left → s.nclients = 0) : Inv { s with net := n, phase := phase } := by
  refine ⟨h.listenfd_new, ?_, ?_, ?_, h.nclients_eq, h.failures_eq, fun rest hphase => ?_, hleft⟩
  · rw [hn]
    exact h.base_open
  · rw [hn]
    exact h.listening
  · change s.interest = n.opened \ _ ∪ s.service
    rw [hn]
    exact h.interest_eq
  · obtain ⟨honce, hregistered, hlistening⟩ := hpending rest hphase
    exact ⟨honce, hregistered, hlistening⟩

/-- The events after the first one. -/
theorem Pending.tail {e : Event} {rest : List Event} (h : Pending s (e :: rest)) : Pending s rest :=
  ⟨(List.nodup_cons.mp h.once).2, fun x hx => h.registered x (List.mem_cons_of_mem e hx),
    fun x hx => h.listening x (List.mem_cons_of_mem e hx)⟩

/-- The first event is not on the descriptor of another one. -/
theorem Pending.fd_ne {e x : Event} {rest : List Event} (h : Pending s (e :: rest))
    (hx : x ∈ rest) : x.fd ≠ e.fd := fun he =>
  (List.nodup_cons.mp h.once).1 (List.mem_map.mpr ⟨x, hx, he⟩)

/-- A new connection is registered. -/
theorem Inv.connected (h : Inv s) {e : Event} {rest : List Event} {cfd : ℕ} {n : Sockets}
    (hphase : s.phase = .processing (e :: rest)) (hopen : s.listenfd ∈ s.net.opened)
    (hn : s.net.accept cfd = some n) : Inv ({ s with net := n }.connected cfd rest) := by
  obtain ⟨hfree, hopened, -, -⟩ := Sockets.accept_spec hn
  have hnew : cfd ∉ s.interest := fun hmem => hfree (h.interest_open hmem)
  have hadd : State.addClient { s with net := n } cfd = some { s with
      net := n, interest := insert cfd s.interest, nclients := s.nclients + 1 } := if_neg hnew
  have hbase : cfd ∉ ({0, 1, 2, s.epollFd} : Finset ℕ) := fun hmem => hfree (h.base_open hmem)
  have hlisten : cfd ≠ s.listenfd := fun he => hfree (he ▸ hopen)
  have hpending := (h.pending _ hphase).tail
  rw [State.connected, hadd]
  constructor
  · exact h.listenfd_new
  · exact h.base_open.trans (hopened ▸ Finset.subset_insert cfd _)
  · change s.listenfd ∈ n.opened ↔ _
    rw [hopened, Finset.mem_insert, or_iff_right hlisten.symm]
    exact h.listening
  · ext fd
    change fd ∈ insert cfd s.interest ↔ fd ∈ n.opened \ _ ∪ s.service
    rw [Finset.mem_insert, h.interest_eq, Finset.mem_union, Finset.mem_union, mem_connections,
      hopened]
    simp only [Finset.mem_sdiff, Finset.mem_insert, Finset.mem_singleton] at hbase ⊢
    constructor
    · rintro (rfl | hold | hservice)
      · left
        tauto
      · left
        tauto
      · exact .inr hservice
    · rintro (⟨rfl | hold, hnot⟩ | hservice)
      · exact .inl rfl
      · right
        left
        tauto
      · exact .inr (.inr hservice)
  · change s.nclients + 1 = ((insert cfd s.interest).card : ℤ)
    rw [Finset.card_insert_of_notMem hnew, h.nclients_eq]
    push_cast
    rfl
  · exact h.failures_eq
  · rintro rest' hrest
    cases hrest
    exact ⟨hpending.once, fun x hx => (hpending.registered x hx).imp_left Finset.mem_insert_of_mem,
      hpending.listening⟩
  · exact fun hleft => nomatch hleft

/-- A request comes from a connection. -/
theorem Inv.request (h : Inv s) {e : Event} {rest : List Event}
    (hphase : s.phase = .processing (e :: rest)) (hkind : s.kind e = .request) :
    e.fd ∈ s.connections ∧ e.fd ∈ s.interest := by
  have hpending := h.pending _ hphase
  have hbranch : ¬(e.fd = s.listenfd ∧ e.Has epollIn) ∧ e.fd ≠ 0 := by
    unfold State.kind at hkind
    split at hkind
    · cases hkind
    · split at hkind
      · split at hkind
        · cases hkind
        · next hfirst _ hzero => exact ⟨hfirst, hzero⟩
      · cases hkind
  obtain ⟨hfirst, hzero⟩ := hbranch
  have hne : e.fd ≠ s.listenfd := by
    intro he
    -- the listening socket only reports connections
    refine hfirst ⟨he, ?_⟩
    rw [Event.Has, hpending.listening e List.mem_cons_self he]
    decide
  have hmem : e.fd ∈ s.interest :=
    (hpending.registered e List.mem_cons_self).resolve_right fun hlisten => hne hlisten.1
  refine ⟨?_, hmem⟩
  have hin := hmem
  rw [h.interest_eq, Finset.mem_union] at hin
  refine hin.resolve_right fun hservice => ?_
  obtain ⟨-, he | he⟩ := mem_service.mp hservice
  · exact hne he
  · exact hzero he

/-- A connection at its end is closed and not registered any more. -/
theorem Inv.closed (h : Inv s) {e : Event} {rest : List Event}
    (hphase : s.phase = .processing (e :: rest)) (hkind : s.kind e = .request) :
    Inv { (s.remClient e.fd).close e.fd with phase := .processing rest } := by
  obtain ⟨hconnection, hmem⟩ := h.request hphase hkind
  obtain ⟨-, hlisten, hbase⟩ := mem_connections.mp hconnection
  have hpending := h.pending _ hphase
  rw [remClient_eq hmem]
  constructor
  · exact h.listenfd_new
  · exact Finset.subset_erase.mpr ⟨h.base_open, hbase⟩
  · change s.listenfd ∈ s.net.opened.erase e.fd ↔ _
    rw [Finset.mem_erase, and_iff_right hlisten.symm]
    exact h.listening
  · ext fd
    change fd ∈ (s.interest.erase e.fd).erase e.fd ↔ fd ∈ s.net.opened.erase e.fd \ _ ∪ s.service
    rw [Finset.mem_erase, Finset.mem_erase, h.interest_eq, Finset.mem_union, Finset.mem_union,
      mem_connections, Finset.mem_sdiff, Finset.mem_erase]
    simp only [mem_service, Finset.mem_insert, Finset.mem_singleton] at hbase ⊢
    constructor
    · rintro ⟨hne, -, hin⟩
      tauto
    · rintro (⟨⟨hne, hopen⟩, hnot⟩ | ⟨hrunning, hservice⟩)
      · tauto
      · have hne : fd ≠ e.fd := by
          rintro rfl
          rcases hservice with he | he
          · exact hlisten he
          · exact hbase (.inl he)
        exact ⟨hne, hne, .inr ⟨hrunning, hservice⟩⟩
  · change s.nclients - 1 = (((s.interest.erase e.fd).erase e.fd).card : ℤ)
    rw [Finset.erase_eq_of_notMem (Finset.notMem_erase _ _)]
    exact h.count_erase hmem
  · exact h.failures_eq
  · rintro rest' hrest
    cases hrest
    refine ⟨hpending.tail.once, fun x hx => ?_, hpending.tail.listening⟩
    have hne := hpending.fd_ne hx
    refine (hpending.tail.registered x hx).imp_left fun hin => ?_
    exact Finset.mem_erase.mpr ⟨hne, Finset.mem_erase.mpr ⟨hne, hin⟩⟩
  · exact fun hleft => nomatch hleft

/-- The end of the service takes both registrations of the service away. -/
theorem Inv.terminated (h : Inv s) {e : Event} {rest : List Event}
    (hphase : s.phase = .processing (e :: rest)) (hkind : s.kind e = .termination) :
    Inv (s.terminate rest) := by
  have hpending := h.pending _ hphase
  have hzero : e.fd = 0 := by
    unfold State.kind at hkind
    split at hkind
    · cases hkind
    · split at hkind
      · split at hkind
        · assumption
        · cases hkind
      · cases hkind
  have hlisten : s.listenfd ≠ 0 := fun he => h.listenfd_new (by simp [he])
  have hin : 0 ∈ s.interest := by
    rw [← hzero]
    refine (hpending.registered e List.mem_cons_self).resolve_right fun hend => ?_
    exact hlisten (hend.1.symm.trans hzero)
  have hrunning : s.terminated = false := by
    have hmem := hin
    rw [h.interest_eq, Finset.mem_union] at hmem
    rcases hmem with hmem | hmem
    · exact absurd (by simp) (mem_connections.mp hmem).2.2
    · exact (mem_service.mp hmem).1
  have hlin : s.listenfd ∈ s.interest := by
    rw [h.interest_eq, Finset.mem_union]
    exact .inr (mem_service.mpr ⟨hrunning, .inl rfl⟩)
  have hin' : 0 ∈ s.interest.erase s.listenfd := Finset.mem_erase.mpr ⟨hlisten.symm, hin⟩
  rw [State.terminate, remClient_eq hlin, remClient_eq hin']
  constructor
  · exact h.listenfd_new
  · exact Finset.subset_erase.mpr ⟨h.base_open, h.listenfd_new⟩
  · exact ⟨fun hmem => absurd hmem (Finset.notMem_erase _ _), fun hfalse => nomatch hfalse⟩
  · ext fd
    change fd ∈ ((s.interest.erase s.listenfd).erase 0).erase s.listenfd ↔
      fd ∈ s.net.opened.erase s.listenfd \ {0, 1, 2, s.listenfd, s.epollFd} ∪ ∅
    rw [Finset.union_empty, Finset.mem_erase, Finset.mem_erase, Finset.mem_erase, h.interest_eq,
      Finset.mem_union, mem_connections, mem_service, Finset.mem_sdiff, Finset.mem_erase]
    simp only [Finset.mem_insert, Finset.mem_singleton]
    tauto
  · change s.nclients - 1 - 1 = ((((s.interest.erase s.listenfd).erase 0).erase s.listenfd).card : ℤ)
    have hgone : s.listenfd ∉ (s.interest.erase s.listenfd).erase 0 := fun hmem =>
      Finset.notMem_erase _ _ (Finset.mem_of_mem_erase hmem)
    have hpos := Finset.card_pos.mpr ⟨0, hin'⟩
    rw [Finset.erase_eq_of_notMem hgone, h.count_erase hlin, Finset.card_erase_of_mem hin']
    omega
  · exact h.failures_eq
  · rintro rest' hrest
    cases hrest
    refine ⟨hpending.tail.once, fun x hx => ?_, hpending.tail.listening⟩
    rcases eq_or_ne x.fd s.listenfd with he | he
    · exact .inr ⟨he, rfl⟩
    · have hx0 : x.fd ≠ 0 := hzero ▸ hpending.fd_ne hx
      have hold := (hpending.tail.registered x hx).resolve_right fun hend => he hend.1
      exact .inl (Finset.mem_erase.mpr ⟨he, Finset.mem_erase.mpr ⟨hx0, Finset.mem_erase.mpr ⟨he, hold⟩⟩⟩)
  · exact fun hleft => nomatch hleft

/-- Every step keeps the bookkeeping. -/
theorem Inv.next {t : State} {a : Action} (h : Inv s) (hstep : s.next a = some t) : Inv t := by
  cases next_moves hstep with
  | reported batch _ hreports =>
    refine h.moved _ rfl _ (fun rest hrest => ?_) fun hleft => (nomatch hleft)
    cases hrest
    exact ⟨hreports.once, fun e he => .inl (hreports.registered e he), hreports.listening⟩
  | leaves _ hnone =>
    exact h.moved _ rfl _ (fun rest hrest => (nomatch hrest)) fun _ => hnone
  | refused =>
    exact h.moved _ rfl _ (fun rest hrest => (nomatch hrest)) fun hleft => (nomatch hleft)
  | accepted e rest cfd n hphase hopen hn => exact h.connected hphase hopen hn
  | answered e rest r hphase hkind =>
    unfold State.answer
    split
    · exact h.closed hphase hkind
    · refine h.moved _ ?_ _ (fun rest' hrest => ?_) fun hleft => (nomatch hleft)
      · rfl
      · cases hrest
        exact (h.pending _ hphase).tail
  | terminates e rest hphase hkind => exact h.terminated hphase hkind
  | ignored e rest hphase =>
    refine h.moved _ rfl _ (fun rest' hrest => ?_) fun hleft => (nomatch hleft)
    cases hrest
    exact (h.pending _ hphase).tail
  | finished =>
    exact h.moved _ rfl _ (fun rest hrest => (nomatch hrest)) fun hleft => (nomatch hleft)

end Steps

/-- Along every run the bookkeeping is in order. -/
theorem inv_reachable {s : State} (h : server.Reachable s) : Inv s := by
  refine System.Reachable.invariant (I := Inv) (fun s hs => ?_)
    (fun s a t _ hs hstep => hs.next hstep) h
  have hopened : s.net.opened = {0, 1, 2, s.listenfd, s.epollFd} := by
    rw [hs.net_eq]
    rfl
  constructor
  · exact hs.listenfd_new
  · rw [hopened]
    intro fd hfd
    simp only [Finset.mem_insert, Finset.mem_singleton] at hfd ⊢
    tauto
  · rw [hopened, hs.terminated_eq]
    simp
  · rw [State.connections, hopened, Finset.sdiff_self, Finset.empty_union, hs.interest_eq,
      State.service, hs.terminated_eq]
    rfl
  · have hne : s.listenfd ≠ 0 := fun he => hs.listenfd_new (by simp [he])
    rw [hs.nclients_eq, hs.interest_eq, Finset.card_pair hne]
    rfl
  · exact hs.failures_eq
  · intro rest hphase
    exact absurd (hs.phase_eq.symm.trans hphase) (by simp)
  · intro hphase
    exact absurd (hs.phase_eq.symm.trans hphase) (by simp)

/-- The counter is zero when the end was asked for and no connection is left. -/
theorem Inv.nclients_eq_zero_iff {s : State} (h : Inv s) :
    s.nclients = 0 ↔ s.terminated = true ∧ s.connections = ∅ := by
  rw [h.nclients_eq, Int.natCast_eq_zero, Finset.card_eq_zero, h.interest_eq,
    Finset.union_eq_empty, and_comm]
  refine and_congr_left fun _ => ?_
  unfold State.service
  cases s.terminated with
  | true => exact ⟨fun _ => rfl, fun _ => rfl⟩
  | false => exact ⟨fun he => absurd he (Finset.insert_ne_empty _ _), fun he => nomatch he⟩

/-- The counter counts the registrations, which are the open connections and,
until the end is asked for, the two of the service. No registration is removed
twice, and the loop leaves exactly when the end was asked for and every
connection is closed. -/
theorem epoll_bookkeeping {s : State} (h : server.Reachable s) :
    s.nclients = s.interest.card ∧
      s.interest = s.connections ∪ (if s.terminated then ∅ else {s.listenfd, 0}) ∧
      s.failures = [] ∧
      (s.phase = .waiting →
        ((s.next .leave).isSome ↔ s.terminated = true ∧ s.connections = ∅)) ∧
      (s.phase = .left → s.terminated = true ∧ s.connections = ∅) := by
  have hI := inv_reachable h
  refine ⟨hI.nclients_eq, hI.interest_eq, hI.failures_eq, fun hphase => ?_, fun hphase => ?_⟩
  · rw [← hI.nclients_eq_zero_iff, State.next, hphase]
    by_cases hnone : s.nclients = 0
    · simp [hnone]
    · simp [hnone]
  · exact hI.nclients_eq_zero_iff.mp (hI.left hphase)

/-- A client is accepted and counted beside the two descriptors of the service. The
end is asked for before the connection event of the same batch, and the loop leaves
after the client closes. -/
theorem epoll_bookkeeping_last_client :
    ∃ s trace t, server.Reachable s ∧ s.connections = {5} ∧ s.nclients = 3 ∧
      server.Run s trace t ∧ t.phase = .left ∧ t.terminated = true ∧ t.connections = ∅ := by
  have hstart : server.Reachable
      ⟨{3, 0}, 2, 3, 4, .start {0, 1, 2, 3, 4}, .waiting, false, []⟩ :=
    .start ⟨by decide, by decide, rfl, rfl, rfl, rfl, rfl, rfl⟩
  have hfirst := hstart.next (a := .wait [⟨3, epollIn⟩]) (show State.next _ _ = some _ from rfl)
  have hclient := hfirst.next (a := .accept (some 5)) (show State.next _ _ = some _ from rfl)
  have hhere : ∀ {u}, server.Reachable u → server.Run u [] u := fun _ => .nil _
  have htop := (hhere hclient).snoc (a := .run) (show State.next _ _ = some _ from rfl)
  have hsecond := htop.snoc (a := .wait [⟨0, epollIn⟩, ⟨3, epollIn⟩])
    (show State.next _ _ = some _ from rfl)
  have hend := hsecond.snoc (a := .run) (show State.next _ _ = some _ from rfl)
  have hfailed := hend.snoc (a := .accept none) (show State.next _ _ = some _ from rfl)
  have hthird := hfailed.snoc (a := .wait [⟨5, epollIn⟩]) (show State.next _ _ = some _ from rfl)
  have hclosed := hthird.snoc (a := .read ⟨List.replicate 256 0, [], length_zeros, length_nil_le⟩)
    (show State.next _ _ = some _ from rfl)
  have hlast := hclosed.snoc (a := .run) (show State.next _ _ = some _ from rfl)
  have hleft := hlast.snoc (a := .leave) (show State.next _ _ = some _ from rfl)
  have hcount := (epoll_bookkeeping hclient).1
  exact ⟨_, _, _, hclient, by decide, hcount.trans (by decide), hleft, rfl,
    (epoll_bookkeeping (hleft.reachable hclient)).2.2.2.2 rfl⟩

end SistemasOperativos.EpollServer
