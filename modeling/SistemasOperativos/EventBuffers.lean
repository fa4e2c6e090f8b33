import Mathlib.Data.Set.Card
import SistemasOperativos.EpollServerBookkeeping
import SistemasOperativos.EventLoopHandles

/-!
# The room for the events of a batch

Both programs over epoll have an array of fixed length for the events, and ask
`epoll_wait` for as many events as descriptors are registered. Nothing keeps
the number of registrations below the length.
-/

namespace SistemasOperativos

open TransitionRuns Connections

/-- `EPOOL_MAX_FDS`, the length of `clients`. -/
abbrev epoolMaxFds : ℕ := 1024

namespace EpollServer

/-- The server calls `epoll_wait`. -/
def State.Waits (s : State) : Prop := s.phase = .waiting ∧ s.nclients ≠ 0

/-- `epoll_wait` is asked for an event at least when there is a registration, and
for no more events than the array holds. -/
def State.Fits (s : State) : Prop :=
  (s.interest.Nonempty → 1 ≤ s.nclients) ∧ s.nclients ≤ epoolMaxFds

/-- Number of clients for whose events there is room. -/
def State.room (s : State) : ℕ := if s.terminated then epoolMaxFds else epoolMaxFds - 2

variable {s : State}

/-- A connection and the descriptors of the service are different. -/
theorem disjoint_service (s : State) : Disjoint s.connections s.service := by
  refine Finset.disjoint_left.mpr fun fd hconnection hservice => ?_
  obtain ⟨-, hlisten, hbase⟩ := mem_connections.mp hconnection
  obtain ⟨-, rfl | rfl⟩ := mem_service.mp hservice
  · exact hlisten rfl
  · exact hbase (by simp)

/-- There is room for the events exactly if there are not too many clients. -/
theorem Inv.fits_iff (h : Inv s) : s.Fits ↔ s.connections.card ≤ s.room := by
  have hcount := h.nclients_eq
  have hservice : s.service.card = if s.terminated then 0 else 2 := by
    unfold State.service
    split
    · rfl
    · exact Finset.card_pair fun he => h.listenfd_new (by simp [he])
  have hcard : s.interest.card = s.connections.card + if s.terminated then 0 else 2 := by
    rw [h.interest_eq, Finset.card_union_of_disjoint (disjoint_service s), hservice]
  have hone : s.interest.Nonempty → 1 ≤ s.nclients := by
    intro hsome
    have hpos := Finset.card_pos.mpr hsome
    omega
  rw [State.Fits, and_iff_right hone, hcount, Int.ofNat_le, hcard, State.room]
  split
  · rw [Nat.add_zero]
  · exact (Nat.le_sub_iff_add_le (by decide)).symm

/-- One more client connects. -/
theorem exists_connected (hs : server.Reachable s) (hphase : s.phase = .waiting)
    (hrunning : s.terminated = false) : ∃ t, server.Reachable t ∧ t.phase = .waiting ∧
      t.terminated = false ∧ t.connections.card = s.connections.card + 1 := by
  have hI := inv_reachable hs
  have hlisten : s.listenfd ∈ s.interest := by
    rw [hI.interest_eq]
    exact Finset.mem_union_right _ (mem_service.mpr ⟨hrunning, .inl rfl⟩)
  have hopen := hI.listening.mpr hrunning
  have hpos := Finset.card_pos.mpr ⟨_, hlisten⟩
  have hcount := hI.nclients_eq
  have hreports : s.Reports [⟨s.listenfd, epollIn⟩] := by
    refine ⟨?_, List.nodup_singleton _, ?_, ?_⟩
    · exact List.forall_mem_singleton.mpr hlisten
    · exact List.forall_mem_singleton.mpr fun _ => rfl
    · rw [List.length_singleton, hcount]
      exact_mod_cast hpos
  have hwait : s.next (.wait [⟨s.listenfd, epollIn⟩]) =
      some { s with phase := .processing [⟨s.listenfd, epollIn⟩] } :=
    if_pos ⟨hphase, by omega, hreports⟩
  have hfree : lowest s.net.opened ∉ s.net.opened := Nat.find_spec (exists_unused s.net.opened)
  obtain ⟨n, hn⟩ : ∃ n, s.net.accept (lowest s.net.opened) = some n := ⟨_, if_neg hfree⟩
  obtain ⟨-, hopened, -, -⟩ := Sockets.accept_spec hn
  have hnew : lowest s.net.opened ∉ s.interest := fun hmem => hfree (hI.interest_open hmem)
  have hasIn : epollIn &&& epollIn ≠ 0 := by decide
  have hkind : State.kind { s with phase := .processing [⟨s.listenfd, epollIn⟩] }
      ⟨s.listenfd, epollIn⟩ = .connection := if_pos ⟨rfl, hasIn⟩
  have haccept : State.next { s with phase := .processing [⟨s.listenfd, epollIn⟩] }
      (.accept (some (lowest s.net.opened))) = some { s with
        net := n
        interest := insert (lowest s.net.opened) s.interest
        nclients := s.nclients + 1
        phase := .processing [] } := by
    simp only [State.next, if_pos hkind, if_pos hopen, hn, Option.map_some, State.connected,
      State.addClient, if_neg hnew]
  have htop : State.next { s with
      net := n
      interest := insert (lowest s.net.opened) s.interest
      nclients := s.nclients + 1
      phase := .processing [] } .run = some { s with
        net := n
        interest := insert (lowest s.net.opened) s.interest
        nclients := s.nclients + 1
        phase := .waiting } := rfl
  refine ⟨_, ((hs.next hwait).next haccept).next htop, rfl, hrunning, ?_⟩
  have hbase : lowest s.net.opened ∉ ({0, 1, 2, s.listenfd, s.epollFd} : Finset ℕ) := by
    intro hmem
    have hcases : lowest s.net.opened = s.listenfd ∨
        lowest s.net.opened ∈ ({0, 1, 2, s.epollFd} : Finset ℕ) := by
      simp only [Finset.mem_insert, Finset.mem_singleton] at hmem ⊢
      tauto
    rcases hcases with he | hmem
    · exact hfree (he ▸ hopen)
    · exact hfree (hI.base_open hmem)
  rw [State.connections, hopened, Finset.insert_sdiff_of_notMem _ hbase, Finset.card_insert_of_notMem]
  · rfl
  · exact fun hmem => hfree (Finset.mem_sdiff.mp hmem).1

/-- Any number of clients can be connected at the same time. -/
theorem exists_connections (n : ℕ) : ∃ s, server.Reachable s ∧ s.phase = .waiting ∧
    s.terminated = false ∧ s.connections.card = n := by
  induction n with
  | zero =>
    refine ⟨⟨{3, 0}, 2, 3, 4, .start {0, 1, 2, 3, 4}, .waiting, false, []⟩, .start ?_, rfl, rfl, rfl⟩
    exact ⟨by decide, by decide, rfl, rfl, rfl, rfl, rfl, rfl⟩
  | succ n ih =>
    obtain ⟨s, hs, hphase, hrunning, hcard⟩ := ih
    obtain ⟨t, ht, hphase', hrunning', hcard'⟩ := exists_connected hs hphase hrunning
    exact ⟨t, ht, hphase', hrunning', hcard'.trans (congrArg Nat.succ hcard)⟩

end EpollServer

namespace EventLoop

variable {κ χ : Type} {s t : State κ χ}

/-- The loop calls `epoll_wait`. -/
def State.Waits (s : State κ χ) : Prop := match s.phase with
  | .waiting => True
  | _ => False

/-- The descriptors in the epoll set. -/
def State.registered (s : State κ χ) : Set ℕ := {fd | s.interest fd ≠ none}

/-- `epoll_wait` is asked for an event at least when there is a registration, and
for no more events than the array holds. -/
def State.Fits (s : State κ χ) : Prop :=
  (s.registered.Nonempty → 1 ≤ s.nclients) ∧ s.nclients ≤ epoolMaxFds

/-- The counter counts the registrations. -/
structure Counted (s : State κ χ) : Prop where
  finite : s.registered.Finite
  nclients_eq : s.nclients = s.registered.ncard

/-- A new registration is counted. -/
theorem Counted.addClient (h : Counted s) (cfd ah : ℕ) (granted : Bool) :
    Counted (s.addClient cfd ah granted) := by
  unfold State.addClient
  split
  next hnew =>
    have hregistered : State.registered { s with
        interest := Function.update s.interest cfd (some ah)
        nclients := s.nclients + 1 } = insert cfd s.registered := by
      ext fd
      rcases eq_or_ne fd cfd with rfl | hne
      · simp [State.registered]
      · simp [State.registered, hne]
    have hnot : cfd ∉ s.registered := fun hmem => hmem hnew.2
    constructor
    · rw [hregistered]
      exact h.finite.insert cfd
    · rw [hregistered, Set.ncard_insert_of_notMem hnot h.finite]
      change s.nclients + 1 = _
      rw [h.nclients_eq]
      rfl
  next => exact h

/-- So is one that goes away. -/
theorem Counted.remClient (h : Counted s) (cfd : ℕ) : Counted (s.remClient cfd) := by
  unfold State.remClient
  split
  next => exact h
  next hold =>
    have hregistered : State.registered { s with
        interest := Function.update s.interest cfd none
        nclients := s.nclients - 1 } = s.registered \ {cfd} := by
      ext fd
      rcases eq_or_ne fd cfd with rfl | hne
      · simp [State.registered]
      · simp [State.registered, hne]
    have hcard := Set.ncard_sdiff_singleton_add_one (a := cfd) (s := s.registered) hold h.finite
    constructor
    · rw [hregistered]
      exact h.finite.sdiff
    · rw [hregistered]
      change s.nclients - 1 = _
      rw [h.nclients_eq, ← hcard]
      push_cast
      omega

/-- The counter does not depend on the handles nor on the place in the program. -/
theorem Counted.congr (h : Counted s) (hinterest : t.interest = s.interest)
    (hcount : t.nclients = s.nclients) : Counted t := by
  have hregistered : t.registered = s.registered := by rw [State.registered, hinterest]; rfl
  exact ⟨hregistered ▸ h.finite, by rw [hcount, hregistered, h.nclients_eq]⟩

/-- Along every run the counter counts the registrations. -/
theorem counted_reachable (h : (loop κ χ).Reachable s) : Counted s := by
  refine System.Reachable.invariant (I := Counted) (fun s hs => ?_)
    (fun s a t _ hs hstep => ?_) h
  · have hempty : s.registered = ∅ := by
      rw [hs]
      exact Set.eq_empty_of_forall_notMem fun fd hmem => hmem rfl
    refine ⟨hempty ▸ Set.finite_empty, ?_⟩
    rw [hempty, Set.ncard_empty, hs]
    rfl
  · cases next_moves hstep with
    | registered fd granted =>
      refine Counted.addClient ?_ fd s.allocated granted
      exact hs.congr rfl rfl
    | closed ah hd => exact (hs.remClient hd.fd).congr rfl rfl
    | started | returned | looped | reported | finished | passed | called => exact hs.congr rfl rfl

/-- There is room for the events exactly if there are not too many registrations. -/
theorem Counted.fits_iff (h : Counted s) : s.Fits ↔ s.registered.ncard ≤ epoolMaxFds := by
  have hone : s.registered.Nonempty → 1 ≤ s.nclients := by
    intro hsome
    have hpos := (Set.ncard_pos h.finite).mpr hsome
    rw [h.nclients_eq]
    exact_mod_cast hpos
  rw [State.Fits, and_iff_right hone, h.nclients_eq, Int.ofNat_le]

/-- Any number of descriptors can be registered. -/
theorem exists_registered (κ χ : Type) (n : ℕ) : ∃ s, (loop κ χ).Reachable s ∧ s.Waits ∧
    s.registered.ncard = n := by
  have hsetup : ∃ s : State κ χ, (loop κ χ).Reachable s ∧ s.phase = .setup ∧ s.nclients = n ∧
      ∀ fd, n ≤ fd → s.interest fd = none := by
    induction n with
    | zero => exact ⟨initial, .start rfl, rfl, rfl, fun _ _ => rfl⟩
    | succ n ih =>
      obtain ⟨s, hs, hphase, hcount, hfree⟩ := ih
      have hstep : s.next (.regist n true) = some (s.registFd n true) := by
        simp only [State.next, hphase, Phase.user, if_true]
      refine ⟨_, hs.next hstep, (registFd_spec s n true).2.2.1.trans hphase, ?_, fun fd hfd => ?_⟩
      · rw [State.registFd, State.addClient, if_pos ⟨rfl, hfree n le_rfl⟩]
        change s.nclients + 1 = _
        rw [hcount]
        rfl
      · have hold := hfree fd (Nat.le_of_succ_le hfd)
        rcases (registFd_spec s n true).2.2.2 with hsame | ⟨-, hnew⟩
        · rw [hsame, hold]
        · rw [hnew, Function.update_of_ne (by omega), hold]
  obtain ⟨s, hs, hphase, hcount, -⟩ := hsetup
  have hstep : s.next .loop = some { s with phase := .waiting } := by
    simp only [State.next, hphase]
  have hcounted := (counted_reachable (hs.next hstep)).nclients_eq
  refine ⟨_, hs.next hstep, trivial, ?_⟩
  change s.nclients = _ at hcounted
  omega

end EventLoop

namespace EventBuffers

/-- In a run of the server, or of the loop, the events that `epoll_wait` is asked
for fit into the array exactly if at no call too many clients are connected, or
too many descriptors registered. -/
theorem wait_fits_iff {s t : EpollServer.State}
    {trace : List (Transition EpollServer.State EpollServer.Action)} (hs : EpollServer.Started s)
    (hrun : EpollServer.server.Run s trace t) {κ χ : Type} {l : EventLoop.State κ χ}
    {calls : List (Transition (EventLoop.State κ χ) (EventLoop.Action κ χ))}
    (hloop : (EventLoop.loop κ χ).Run EventLoop.initial calls l) :
    ((∀ v ∈ visited trace t, v.Waits → v.Fits) ↔
      ∀ v ∈ visited trace t, v.Waits → v.connections.card ≤ v.room) ∧
    ((∀ v ∈ visited calls l, v.Waits → v.Fits) ↔
      ∀ v ∈ visited calls l, v.Waits → v.registered.ncard ≤ epoolMaxFds) := by
  constructor
  · refine forall_congr' fun v => forall_congr' fun hv => forall_congr' fun _ => ?_
    exact (EpollServer.inv_reachable (hrun.reachable_of_mem (.start hs) hv)).fits_iff
  · refine forall_congr' fun v => forall_congr' fun hv => forall_congr' fun _ => ?_
    exact (EventLoop.counted_reachable (hloop.reachable_of_mem (.start rfl) hv)).fits_iff

/-- The server with one client, and the loop with one descriptor. -/
theorem wait_fits_iff_one_client : ∃ (t : EpollServer.State) (l : EventLoop.State Unit Unit),
    t.Waits ∧ t.connections = {5} ∧ t.Fits ∧ l.Waits ∧ l.registered.ncard = 1 ∧ l.Fits := by
  let s : EpollServer.State := ⟨{3, 0}, 2, 3, 4, .start {0, 1, 2, 3, 4}, .waiting, false, []⟩
  have hs : EpollServer.Started s := ⟨by decide, by decide, rfl, rfl, rfl, rfl, rfl, rfl⟩
  have hreported := (System.Run.nil (S := EpollServer.server) s).snoc
    (a := .wait [⟨3, EpollServer.epollIn⟩]) (show EpollServer.State.next _ _ = some _ from rfl)
  have haccepted := hreported.snoc (a := .accept (some 5))
    (show EpollServer.State.next _ _ = some _ from rfl)
  have hconnected := haccepted.snoc (a := .run) (show EpollServer.State.next _ _ = some _ from rfl)
  let l : EventLoop.State Unit Unit :=
    { EventLoop.initial.registFd 5 true with phase := .waiting }
  have hregist : (EventLoop.loop Unit Unit).step EventLoop.initial (.regist 5 true)
      (EventLoop.initial.registFd 5 true) := rfl
  have hloop : (EventLoop.loop Unit Unit).step (EventLoop.initial.registFd 5 true) .loop l := rfl
  have hrun := ((System.Run.nil EventLoop.initial).snoc hregist).snoc hloop
  have hwaits : l.Waits := trivial
  have hone : l.registered = {5} := by
    ext fd
    rcases eq_or_ne fd 5 with rfl | hne
    · simp [EventLoop.State.registered, EventLoop.State.registFd, EventLoop.State.addClient,
        EventLoop.initial, l]
    · simp [EventLoop.State.registered, EventLoop.State.registFd, EventLoop.State.addClient,
        EventLoop.initial, l, hne]
  have hcard : l.registered.ncard = 1 := by rw [hone, Set.ncard_singleton]
  obtain ⟨hserver, hcalls⟩ := wait_fits_iff hs hconnected hrun
  have hfits := hserver.mpr (fun v hv hcalled => by
    simp only [List.nil_append, List.cons_append, visited, List.map_cons, List.map_nil,
      List.mem_cons, List.not_mem_nil, or_false] at hv
    rcases hv with rfl | rfl | rfl | rfl
    · decide
    · cases hcalled.1
    · cases hcalled.1
    · decide) _ (List.mem_append_right _ (List.mem_singleton.mpr rfl)) ⟨rfl, by decide⟩
  have hlast := hcalls.mpr (fun v hv hcalled => by
    simp only [List.nil_append, List.cons_append, visited, List.map_cons, List.map_nil,
      List.mem_cons, List.not_mem_nil, or_false] at hv
    rcases hv with rfl | rfl | rfl
    · exact hcalled.elim
    · exact hcalled.elim
    · exact hcard.trans_le (by decide)) l
    (List.mem_append_right _ (List.mem_singleton.mpr rfl)) hwaits
  exact ⟨_, l, ⟨rfl, by decide⟩, by decide, hfits, hwaits, hcard, hlast⟩

/-- With more clients than room, or one descriptor too many, the array is too short. -/
theorem many_clients_overrun : (∃ s, EpollServer.server.Reachable s ∧ s.Waits ∧
      s.connections.card = 1023 ∧ ¬ s.Fits) ∧
    ∃ l, (EventLoop.loop Unit Unit).Reachable l ∧ l.Waits ∧ l.registered.ncard = 1025 ∧
      ¬ l.Fits := by
  constructor
  · obtain ⟨s, hs, hphase, hrunning, hcard⟩ := EpollServer.exists_connections 1023
    have hI := EpollServer.inv_reachable hs
    refine ⟨s, hs, ⟨hphase, fun hnone => ?_⟩, hcard, fun hfits => ?_⟩
    · rw [hI.nclients_eq_zero_iff, hrunning] at hnone
      exact Bool.false_ne_true hnone.1
    · have hle := hI.fits_iff.mp hfits
      rw [hcard, EpollServer.State.room, hrunning] at hle
      exact absurd hle (by decide)
  · obtain ⟨l, hl, hwaits, hcard⟩ := EventLoop.exists_registered Unit Unit 1025
    refine ⟨l, hl, hwaits, hcard, fun hfits => ?_⟩
    have hle := (EventLoop.counted_reachable hl).fits_iff.mp hfits
    rw [hcard] at hle
    exact absurd hle (by decide)

end EventBuffers

end SistemasOperativos
