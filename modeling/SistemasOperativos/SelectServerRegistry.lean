import SistemasOperativos.SelectServer

/-!
# The registry of the select server

The array, the count, the bit set and the open descriptors always name the same
clients. A client limit below the size of the bit set and the lowest-descriptor
rule keep every descriptor inside the bit set.
-/

namespace SistemasOperativos.SelectServer

open TransitionRuns Connections DenseArray

/-- The four views of the clients agree, and stay inside the bit set. -/
structure Inv (s : State) : Prop where
  listenfd_eq : s.listenfd = 3
  maxclients_eq : s.maxclients = fdSetSize - 4
  count_le : s.nclients ≤ s.maxclients
  distinct : Distinct s.clients s.nclients
  allset_eq : s.allset = insert s.listenfd s.registered
  opened_eq : s.net.opened = {0, 1, 2, s.listenfd} ∪ s.registered
  /-- Clients have numbers of their own. -/
  apart : Disjoint {0, 1, 2, s.listenfd} s.registered
  le_max : ∀ fd ∈ s.allset, fd ≤ s.maxclientFd
  lt_size : ∀ fd ∈ s.allset, fd < fdSetSize

/-- Nothing but the scan position and the reported bits changes. -/
theorem Inv.moved {s t : State} (h : Inv s) (rset : Finset ℕ) (phase : Phase)
    (ht : t = { s with rset := rset, phase := phase }) : Inv t := by
  subst ht
  exact ⟨h.listenfd_eq, h.maxclients_eq, h.count_le, h.distinct, h.allset_eq, h.opened_eq, h.apart,
    h.le_max, h.lt_size⟩

/-- Some traffic goes over the connections. -/
theorem Inv.traffic {s : State} (h : Inv s) (n : Sockets) (hn : n.opened = s.net.opened)
    (phase : Phase) : Inv { s with net := n, phase := phase } :=
  ⟨h.listenfd_eq, h.maxclients_eq, h.count_le, h.distinct, h.allset_eq, hn.trans h.opened_eq,
    h.apart, h.le_max, h.lt_size⟩

/-- As many descriptors are open as there are clients, and four more. -/
theorem Inv.card_opened {s : State} (h : Inv s) : s.net.opened.card = 4 + s.nclients := by
  rw [h.opened_eq, Finset.card_union_of_disjoint h.apart, State.registered,
    h.distinct.card_members, h.listenfd_eq]
  rfl

/-- A new connection is registered, or closed again when there is no room. -/
theorem Inv.connected {s : State} (h : Inv s) {n : Sockets} {cfd : ℕ} (nready : ℤ)
    (hcfd : cfd = lowest s.net.opened) (hn : s.net.accept cfd = some n) :
    Inv ({ s with net := n }.connected nready cfd) := by
  obtain ⟨hfree, hopened, -, -⟩ := Sockets.accept_spec hn
  unfold State.connected
  dsimp only
  split
  next hnone =>
    -- no room: the descriptor is closed again
    refine h.traffic _ ?_ _
    rw [Sockets.close, hopened, Finset.erase_insert hfree]
  next t ht =>
    simp only [State.addClient, Option.ite_none_left_eq_some, Option.some.injEq] at ht
    obtain ⟨hroom, -, rfl⟩ := ht
    have hcount := h.count_le
    have hmax := h.maxclients_eq
    have hnew : cfd ∉ {0, 1, 2, s.listenfd} ∪ s.registered := h.opened_eq ▸ hfree
    rw [Finset.mem_union, not_or] at hnew
    have hlt : cfd < fdSetSize := by
      have hle := lowest_le_card s.net.opened
      rw [h.card_opened, ← hcfd] at hle
      omega
    have hregistered : members (Function.update s.clients s.nclients cfd) (s.nclients + 1) =
        insert cfd s.registered := members_push _ _ _
    constructor
    · exact h.listenfd_eq
    · exact hmax
    · exact Nat.succ_le_of_lt (lt_of_le_of_ne hcount hroom)
    · exact h.distinct.push fun i hi he => hnew.2 (mem_members.mpr ⟨i, hi, he⟩)
    · change insert cfd s.allset = insert s.listenfd (members _ _)
      rw [hregistered, h.allset_eq, Finset.insert_comm]
    · change n.opened = _ ∪ members _ _
      rw [hregistered, hopened, h.opened_eq, Finset.union_insert]
    · change Disjoint _ (members _ _)
      rw [hregistered, Finset.disjoint_insert_right]
      exact ⟨hnew.1, h.apart⟩
    · intro fd hfd
      change fd ≤ if cfd > s.maxclientFd then cfd else s.maxclientFd
      rcases Finset.mem_insert.mp hfd with rfl | hold
      · split <;> omega
      · have hle := h.le_max fd hold
        split <;> omega
    · intro fd hfd
      rcases Finset.mem_insert.mp hfd with rfl | hold
      · exact hlt
      · exact h.lt_size fd hold

/-- A registered client is removed from all four views. -/
theorem Inv.remClient {s : State} (h : Inv s) {i : ℕ} (hi : i < s.nclients) (phase : Phase) :
    Inv { s.remClient (s.clients i) i with phase := phase } := by
  have hmem : s.clients i ∈ s.registered := mem_members.mpr ⟨i, hi, rfl⟩
  have hnot : s.clients i ∉ ({0, 1, 2, s.listenfd} : Finset ℕ) := fun hin =>
    Finset.disjoint_left.mp h.apart hin hmem
  have hne : s.listenfd ≠ s.clients i := fun he => hnot (by simp [he])
  have hregistered : State.registered { s.remClient (s.clients i) i with phase := phase } =
      s.registered.erase (s.clients i) := h.distinct.members_moveLast hi
  constructor
  · exact h.listenfd_eq
  · exact h.maxclients_eq
  · exact (Nat.sub_le _ _).trans h.count_le
  · exact h.distinct.moveLast i
  · rw [hregistered]
    change s.allset.erase (s.clients i) = insert s.listenfd _
    rw [h.allset_eq, Finset.erase_insert_of_ne hne]
  · rw [hregistered]
    change s.net.opened.erase (s.clients i) = {0, 1, 2, s.listenfd} ∪ _
    rw [h.opened_eq, Finset.erase_union_distrib, Finset.erase_eq_of_notMem hnot]
  · rw [hregistered]
    exact h.apart.mono_right (Finset.erase_subset _ _)
  · exact fun fd hfd => h.le_max fd (Finset.mem_of_mem_erase hfd)
  · exact fun fd hfd => h.lt_size fd (Finset.mem_of_mem_erase hfd)

/-- Every step keeps the views together. -/
theorem Inv.next {s t : State} {a : Action} (h : Inv s) (hstep : s.next a = some t) : Inv t := by
  cases next_moves hstep with
  | selected ready _ _ => exact h.moved _ _ rfl
  | refused => exact h.moved _ _ rfl
  | accepted nready cfd n _ hlowest hn => exact h.connected nready hlowest hn
  | unasked => exact h.moved _ _ rfl
  | answered i nready r _ hi _ =>
    unfold State.answer
    split
    · exact h.remClient hi _
    · refine h.traffic _ ?_ _
      rfl
  | skipped => exact h.moved _ _ rfl
  | ended => exact h.moved _ _ rfl

/-- The socket of the server gets the first number after the standard ones. -/
theorem lowest_standard : lowest standard = 3 := lowest_eq (by decide) (by decide)

/-- Along every run the views stay together. -/
theorem inv_reachable {s : State} (h : server.Reachable s) : Inv s := by
  refine System.Reachable.invariant (I := Inv) ?_ (fun s a t _ hs hstep => hs.next hstep) h
  rintro s rfl
  constructor
  · exact lowest_standard
  · rfl
  · exact Nat.zero_le _
  · exact fun i hi => absurd hi (Nat.not_lt_zero i)
  · rfl
  · change insert (lowest standard) standard = {0, 1, 2, lowest standard} ∪ ∅
    rw [lowest_standard]
    decide
  · exact Finset.disjoint_empty_right _
  · intro fd hfd
    exact (Finset.mem_singleton.mp hfd).le
  · intro fd hfd
    rw [Finset.mem_singleton.mp hfd, lowest_standard]
    decide

/-- The server after `init`, with the number of its socket. -/
def listening : State where
  clients := fun _ => 0
  maxclientFd := 3
  maxclients := 1020
  nclients := 0
  listenfd := 3
  rset := ∅
  allset := {3}
  net := .start {3, 0, 1, 2}
  phase := .selecting

/-- It is the state from which a run begins. -/
theorem listening_eq : listening = initial := by
  rw [initial, lowest_standard]
  rfl

/-- The server with one more client, under a descriptor that is not in use. -/
def connect (s : State) (cfd : ℕ) : State :=
  { s with
    rset := {s.listenfd}
    net := (s.net.accept cfd).getD s.net
    phase := .testing 1 }.connected 1 cfd

/-- A round in which one client connects: two steps. -/
theorem connect_steps {s : State} (cfd : ℕ)
    (h : decide (s.phase = .selecting ∧ {s.listenfd} ⊆ s.allset.filter (· < s.maxclientFd + 1) ∧
      cfd ∉ s.net.opened ∧ ∀ k < cfd, k ∈ s.net.opened) = true) :
    ∃ u, s.next (.select {s.listenfd}) = some u ∧
      u.next (.accept (some cfd)) = some (connect s cfd) := by
  obtain ⟨hphase, hsub, hfree, hbelow⟩ := of_decide_eq_true h
  have hselect : s.next (.select {s.listenfd}) =
      some { s with rset := {s.listenfd}, phase := .testing 1 } := if_pos ⟨hphase, hsub⟩
  obtain ⟨n, hn⟩ : ∃ n, s.net.accept cfd = some n := ⟨_, if_neg hfree⟩
  have hlisten : s.listenfd ∈ ({s.listenfd} : Finset ℕ) := Finset.mem_singleton_self _
  refine ⟨_, hselect, ?_⟩
  simp only [State.next, if_pos hlisten, if_pos (lowest_eq hfree hbelow).symm, hn,
    Option.map_some, connect, Option.getD_some]

/-- The state after such a round is reachable. -/
theorem connect_reachable {s : State} (hs : server.Reachable s) (cfd : ℕ)
    (h : decide (s.phase = .selecting ∧ {s.listenfd} ⊆ s.allset.filter (· < s.maxclientFd + 1) ∧
      cfd ∉ s.net.opened ∧ ∀ k < cfd, k ∈ s.net.opened) = true) :
    server.Reachable (connect s cfd) := by
  obtain ⟨u, hselect, haccept⟩ := connect_steps cfd h
  exact (hs.next hselect).next haccept

/-- The registry at the top of the loop. -/
structure Registry (s : State) : Prop where
  nodup : ((List.range s.nclients).map s.clients).Nodup
  count_le : s.nclients ≤ s.maxclients
  watched : s.allset = insert s.listenfd s.registered
  /-- The clients are the descriptors that were accepted and not closed. -/
  connected : s.registered = s.net.opened \ {0, 1, 2, s.listenfd}
  le_max : ∀ fd ∈ s.allset, fd ≤ s.maxclientFd
  lt_size : ∀ fd ∈ s.allset, fd < fdSetSize

/-- At the top of the loop the registry is in order, and a read only ever goes
to a registered client that `select` reported. -/
theorem select_registry {s : State} (h : server.Reachable s) :
    (s.phase = .selecting → Registry s) ∧
      ∀ cfd, s.reading = some cfd → cfd ∈ s.registered ∧ cfd ∈ s.rset := by
  have hI := inv_reachable h
  constructor
  · intro _
    constructor
    · refine List.Nodup.map_on (fun i hi j hj hij => ?_) List.nodup_range
      exact hI.distinct i (List.mem_range.mp hi) j (List.mem_range.mp hj) hij
    · exact hI.count_le
    · exact hI.allset_eq
    · rw [hI.opened_eq, Finset.union_sdiff_cancel_left hI.apart]
    · exact hI.le_max
    · exact hI.lt_size
  · intro cfd hreading
    cases hphase : s.phase with
    | selecting =>
      rw [State.reading, hphase] at hreading
      cases hreading
    | testing nready =>
      rw [State.reading, hphase] at hreading
      cases hreading
    | scanning i nready =>
      obtain ⟨hi, rfl, hmem⟩ := reading_spec hphase hreading
      exact ⟨mem_members.mpr ⟨i, hi, rfl⟩, hmem⟩

/-- The first of two clients leaves, and the second takes its place in the array. -/
theorem select_registry_first_leaves :
    ∃ s, server.Reachable s ∧ s.clients 0 = 5 ∧ s.registered = {5} ∧ 4 ∉ s.allset ∧ Registry s := by
  have hstart : server.Reachable listening := .start listening_eq
  have hfirst := connect_reachable hstart 4 (by decide +kernel)
  have hsecond := connect_reachable hfirst 5 (by decide +kernel)
  obtain ⟨s, hs, hfound⟩ := System.Reachable.exists_of_any hsecond
    [.select {4}, .run, .read ⟨List.replicate 256 0, [], length_zeros, length_nil_le⟩, .run]
    (p := fun s => s.phase = .selecting ∧ s.clients 0 = 5 ∧ s.registered = {5} ∧ 4 ∉ s.allset)
    (by decide +kernel)
  obtain ⟨hphase, hclient, hregistered, hcleared⟩ := of_decide_eq_true hfound
  exact ⟨s, hs, hclient, hregistered, hcleared, (select_registry hs).1 hphase⟩

end SistemasOperativos.SelectServer
