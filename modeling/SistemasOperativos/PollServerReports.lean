import SistemasOperativos.PollServer

/-!
# The reads of the poll server

An entry that `poll` rewrote holds what it reported. The entry that a round's
connection went into holds what an earlier round left there, and the scan takes
it for a report unless the scan stops before or a client that ends is
overwritten by it first. This is the only way to a read that was not reported.
-/

namespace SistemasOperativos.PollServer

open TransitionRuns Connections DenseArray

/-- The next read, if there is one, is on a descriptor that the `poll` of this
round reported ready, and not on the connection accepted in this round. -/
def State.ReadsReported (s : State) : Prop :=
  ∀ i, s.reading = some i → (s.clients i).fd ∈ s.reported ∧
    (Connecting (s.clients 0).revents → s.round.accepted ≠ some (s.clients i).fd)

/-- A round accepts a connection into an entry where an earlier round left it
ready, reports another entry, and no client that it reports is at its end. -/
structure State.LeftReady (s : State) (r : Round) : Prop where
  connecting : Connecting (r.revents 0)
  accepted : r.accepted.isSome
  room : s.nclients < fopenMax
  another : 2 ≤ s.nready r
  left : Ready (s.clients s.nclients).revents
  staying : ∀ i, 1 ≤ i → i < s.nclients → Ready (r.revents i) → ¬(r.readings i).Ended

/-- The number under which `accept` returns a connection is not in use. -/
def State.Admits (s : State) (r : Round) : Prop := ∀ cfd, r.accepted = some cfd → cfd ∉ s.net.opened

section Invariant

/-- The entries right after `poll`. -/
structure Tested (s : State) (nready : ℤ) : Prop where
  reported_open : s.reported ⊆ s.net.opened
  revents : ∀ i < s.nclients, (s.clients i).revents = s.round.revents i
  sound : ∀ i < s.nclients, Ready (s.clients i).revents → (s.clients i).fd ∈ s.reported
  nready_eq : nready = ((Finset.range s.nclients).filter fun i => s.round.revents i ≠ 0).card

/-- The entries in front are different open descriptors. -/
structure Inv (s : State) : Prop where
  count_pos : 1 ≤ s.nclients
  count_le : s.nclients ≤ fopenMax
  distinct : Distinct (fun i => (s.clients i).fd) s.nclients
  opened : ∀ i < s.nclients, (s.clients i).fd ∈ s.net.opened
  tested : ∀ nready, s.phase = .testing nready → Tested s nready

variable {s : State}

/-- A descriptor keeps its place when `poll` rewrites the entries. -/
theorem polled_fd (s : State) (r : Round) (i : ℕ) : (s.polled r i).fd = (s.clients i).fd := by
  unfold State.polled
  split <;> rfl

/-- Entries in front hold what `poll` reported. -/
theorem polled_revents {r : Round} {i : ℕ} (hi : i < s.nclients) :
    (s.polled r i).revents = r.revents i := by
  rw [State.polled, if_pos hi]

/-- The entry behind holds what it held. -/
theorem polled_behind (s : State) (r : Round) : s.polled r s.nclients = s.clients s.nclients :=
  if_neg (lt_irrefl s.nclients)

/-- Only the place in the program and the traffic change. -/
theorem Inv.moved (h : Inv s) (n : Sockets) (hn : n.opened = s.net.opened) (phase : Phase)
    (hphase : ∀ nready, phase ≠ .testing nready) : Inv { s with net := n, phase := phase } := by
  refine ⟨h.count_pos, h.count_le, h.distinct, fun i hi => ?_,
    fun nready he => absurd he (hphase nready)⟩
  rw [hn]
  exact h.opened i hi

/-- A round starts with the entries as reported. -/
theorem Inv.start (h : Inv s) (r : Round) : Inv (s.start r) := by
  have hfd : (fun i => ((s.start r).clients i).fd) = fun i => (s.clients i).fd :=
    funext (polled_fd s r)
  refine ⟨h.count_pos, h.count_le, hfd ▸ h.distinct, fun i hi => ?_, fun nready hphase => ?_⟩
  · change (s.polled r i).fd ∈ s.net.opened
    rw [polled_fd]
    exact h.opened i hi
  · cases hphase
    constructor
    · intro fd hfd
      obtain ⟨i, hi, rfl⟩ := Finset.mem_image.mp hfd
      exact h.opened i (Finset.mem_range.mp (Finset.mem_filter.mp hi).1)
    · exact fun i hi => polled_revents hi
    · intro i (hi : i < s.nclients) hready
      change Ready (s.polled r i).revents at hready
      rw [polled_revents hi] at hready
      change (s.polled r i).fd ∈ s.ready r
      rw [polled_fd]
      exact Finset.mem_image.mpr
        ⟨i, Finset.mem_filter.mpr ⟨Finset.mem_range.mpr hi, hready⟩, rfl⟩
    · rfl

/-- A connection goes into the entry behind, or is closed when there is no room. -/
theorem Inv.connected (h : Inv s) {cfd : ℕ} {n : Sockets} (nready : ℤ)
    (hn : s.net.accept cfd = some n) : Inv ({ s with net := n }.connected nready cfd) := by
  obtain ⟨hfree, hopened, -, -⟩ := Sockets.accept_spec hn
  unfold State.connected
  split
  next =>
    refine h.moved _ ?_ _ (by simp)
    rw [Sockets.close, hopened, Finset.erase_insert hfree]
  next t ht =>
    simp only [State.addClient, Option.ite_none_left_eq_some, Option.some.injEq] at ht
    obtain ⟨hroom, rfl⟩ := ht
    have hfd : (fun i => (Function.update s.clients s.nclients
        { s.clients s.nclients with fd := cfd, events := pollRdNorm } i).fd) =
        Function.update (fun i => (s.clients i).fd) s.nclients cfd :=
      Function.comp_update PollFd.fd _ _ _
    refine ⟨Nat.succ_le_succ (Nat.zero_le _), lt_of_le_of_ne h.count_le hroom, ?_,
      fun i hi => ?_, fun nready' hphase => ?_⟩
    · change Distinct (fun i => (Function.update s.clients s.nclients _ i).fd) _
      rw [hfd]
      exact h.distinct.push fun i hi he => hfree (he ▸ h.opened i hi)
    · change (fun i => (Function.update s.clients s.nclients _ i).fd) i ∈ n.opened
      rw [hfd, hopened, Finset.mem_insert]
      rcases Nat.lt_succ_iff_lt_or_eq.mp hi with hin | rfl
      · rw [Function.update_of_ne hin.ne]
        exact .inr (h.opened i hin)
      · exact .inl (Function.update_self _ _ _)
    · change (if nready - 1 = 0 then Phase.polling else .scanning 1 (nready - 1)) = _ at hphase
      split at hphase <;> cases hphase

/-- A client at its end is overwritten by the last one. -/
theorem Inv.remClient (h : Inv s) {i : ℕ} (hone : 1 ≤ i) (hi : i < s.nclients) (j : ℕ)
    (nready : ℤ) :
    Inv { s.remClient (s.clients i).fd i with phase := .scanning j nready } := by
  have hfd : (fun j => (moveLast s.clients s.nclients i j).fd) =
      DenseArray.moveLast (fun j => (s.clients j).fd) s.nclients i :=
    Function.comp_update PollFd.fd _ _ _
  refine ⟨Nat.le_sub_one_of_lt (lt_of_le_of_lt hone hi), (Nat.sub_le _ _).trans h.count_le, ?_,
    fun j hj => ?_, fun nready hphase => nomatch hphase⟩
  · change Distinct (fun j => (moveLast s.clients s.nclients i j).fd) _
    rw [hfd]
    exact h.distinct.moveLast i
  · change j < s.nclients - 1 at hj
    change (moveLast s.clients s.nclients i j).fd ∈ s.net.opened.erase (s.clients i).fd
    rcases moveLast_eq s.clients s.nclients i j with ⟨rfl, he⟩ | ⟨hji, he⟩
    · rw [he]
      refine Finset.mem_erase.mpr ⟨fun hsame => ?_, h.opened _ (by omega)⟩
      have hlast := h.distinct (s.nclients - 1) (by omega) j hi hsame
      omega
    · rw [he]
      exact Finset.mem_erase.mpr
        ⟨fun hsame => hji (h.distinct j (by omega) i hi hsame), h.opened j (by omega)⟩

end Invariant

/-- Where the scan stands, from the first client on. -/
def Scanning (s : State) : Prop := ∀ i nready, s.phase = .scanning i nready → 1 ≤ i

/-- Every step keeps the entries in order. -/
theorem Inv.next {s t : State} {a : Action} (h : Inv s) (hscan : Scanning s)
    (hstep : s.next a = some t) : Inv t ∧ Scanning t := by
  cases next_moves hstep with
  | polled r => exact ⟨h.start r, fun i nready hphase => nomatch hphase⟩
  | refused => exact ⟨h.moved _ rfl _ (by simp), fun i nready hphase => nomatch hphase⟩
  | accepted nready cfd n _ _ _ hn =>
    refine ⟨h.connected nready hn, fun i nready' hphase => ?_⟩
    unfold State.connected at hphase
    split at hphase
    · cases hphase
    · dsimp only at hphase
      split at hphase <;> cases hphase
      exact le_rfl
  | unasked =>
    refine ⟨h.moved _ rfl _ (by simp), fun i nready hphase => ?_⟩
    cases hphase
    exact le_rfl
  | answered i nready hphase _ hi _ =>
    unfold State.answer
    dsimp only
    split
    · refine ⟨h.remClient (hscan i nready hphase) hi _ _, fun j nready' hj => ?_⟩
      cases hj
      exact Nat.le_add_left 1 i
    · refine ⟨h.moved _ ?_ _ ?_, fun j nready' hj => ?_⟩
      · rfl
      · exact fun nready' hj => nomatch hj
      · cases hj
        exact Nat.le_add_left 1 i
  | skipped i nready =>
    refine ⟨h.moved _ rfl _ (by simp), fun j nready' hj => ?_⟩
    cases hj
    exact Nat.le_add_left 1 i
  | ended => exact ⟨h.moved _ rfl _ (by simp), fun i nready hphase => nomatch hphase⟩

/-- Along every run the entries are in order. -/
theorem inv_reachable {s : State} (h : server.Reachable s) : Inv s ∧ Scanning s := by
  refine System.Reachable.invariant (I := fun s => Inv s ∧ Scanning s) (fun s hs => ?_)
    (fun s a t _ hs hstep => hs.1.next hs.2 hstep) h
  have hzero : ∀ i < s.nclients, i = 0 := fun i hi => by
    rw [hs.nclients_eq] at hi
    omega
  refine ⟨⟨hs.nclients_eq.ge, hs.nclients_eq.trans_le (by decide), fun i hi j hj _ => ?_,
      fun i hi => ?_, fun nready hphase => ?_⟩,
    fun i nready hphase => ?_⟩
  · rw [hzero i hi, hzero j hj]
  · rw [hzero i hi, hs.clients_eq, hs.net_eq]
    simp [Sockets.start]
  · exact absurd (hs.phase_eq.symm.trans hphase) (by simp)
  · exact absurd (hs.phase_eq.symm.trans hphase) (by simp)

/-- The round under way reads the entry that its connection went into. -/
structure State.ReadsLeft (s : State) (nready : ℤ) : Prop where
  connecting : Connecting (s.clients 0).revents
  accepted : s.round.accepted.isSome
  room : s.nclients < fopenMax
  another : 2 ≤ nready
  left : Ready (s.clients s.nclients).revents
  staying : ∀ i, 1 ≤ i → i < s.nclients → Ready (s.clients i).revents →
    ¬(s.round.readings i).Ended

/-- The same of the entries before and after `poll`. -/
theorem readsLeft_start_iff {s : State} (h : Inv s) (r : Round) :
    (s.start r).ReadsLeft (s.nready r) ↔ s.LeftReady r := by
  have hzero : ((s.start r).clients 0).revents = r.revents 0 := polled_revents h.count_pos
  have hbehind : (s.start r).clients (s.start r).nclients = s.clients s.nclients :=
    polled_behind s r
  have hfront : ∀ i < s.nclients, ((s.start r).clients i).revents = r.revents i :=
    fun i hi => polled_revents hi
  constructor
  · intro hl
    refine ⟨hzero ▸ hl.connecting, hl.accepted, hl.room, by exact_mod_cast hl.another,
      hbehind ▸ hl.left, fun i hone hi hready => ?_⟩
    exact hl.staying i hone hi (by rwa [hfront i hi])
  · intro hl
    refine ⟨hzero ▸ hl.connecting, hl.accepted, hl.room, by exact_mod_cast hl.another,
      hbehind.symm ▸ hl.left, fun i hone hi hready => ?_⟩
    exact hl.staying i hone hi (by rwa [hfront i hi] at hready)

section Scan

/-- The entries from an index on that the scan can still come to. The last one
may be wrong only while a client is ahead that will be overwritten by it. -/
structure Ahead (s : State) (i : ℕ) : Prop where
  apart : Connecting (s.clients 0).revents → ∀ cfd, s.round.accepted = some cfd → cfd ∉ s.reported
  sound : ∀ j, i ≤ j → j + 1 < s.nclients → Ready (s.clients j).revents →
    (s.clients j).fd ∈ s.reported
  last : (i + 1 ≤ s.nclients → Ready (s.clients (s.nclients - 1)).revents →
      (s.clients (s.nclients - 1)).fd ∈ s.reported) ∨
    ∃ k, i ≤ k ∧ k + 1 < s.nclients ∧ Ready (s.clients k).revents ∧ (s.round.readings k).Ended

/-- The rounds under way keep to what was reported. -/
structure Kept (s : State) : Prop where
  testing : ∀ nready, s.phase = .testing nready → ¬ s.ReadsLeft nready
  scanning : ∀ i nready, s.phase = .scanning i nready → Ahead s i

variable {s : State}

/-- The entry at the index of the scan was reported. -/
theorem Ahead.head {i : ℕ} (h : Ahead s i) (hi : i < s.nclients)
    (hready : Ready (s.clients i).revents) : (s.clients i).fd ∈ s.reported := by
  rcases Nat.lt_or_ge (i + 1) s.nclients with hlt | hge
  · exact h.sound i le_rfl hlt hready
  · have hlast : s.nclients - 1 = i := by omega
    rcases h.last with hlast' | ⟨k, hik, hk, -⟩
    · rw [hlast] at hlast'
      exact hlast' hi hready
    · omega

/-- The scan leaves an entry behind that did not end. -/
theorem Ahead.pass {i : ℕ} (h : Ahead s i)
    (hstays : Ready (s.clients i).revents → ¬(s.round.readings i).Ended) (n : Sockets)
    (phase : Phase) : Ahead { s with net := n, phase := phase } (i + 1) := by
  refine ⟨h.apart, fun j hj => h.sound j (Nat.le_of_succ_le hj), ?_⟩
  rcases h.last with hlast | ⟨k, hik, hk, hready, hended⟩
  · exact .inl fun hi => hlast (Nat.le_of_succ_le hi)
  · have hne : i ≠ k := by
      rintro rfl
      exact hstays hready hended
    exact .inr ⟨k, Nat.lt_of_le_of_ne hik hne, hk, hready, hended⟩

/-- After a client ended, only reported entries are ahead. -/
theorem Ahead.overwritten {i : ℕ} (h : Ahead s i) (hone : 1 ≤ i) (hi : i < s.nclients)
    (cfd : ℕ) (phase : Phase) :
    Ahead { s.remClient cfd i with phase := phase } (i + 1) := by
  have hkeep : ∀ j, i + 1 ≤ j → moveLast s.clients s.nclients i j = s.clients j := fun j hj =>
    Function.update_of_ne (by omega) _ _
  have hzero : moveLast s.clients s.nclients i 0 = s.clients 0 :=
    Function.update_of_ne (by omega) _ _
  have hall : ∀ j, i + 1 ≤ j → j < s.nclients - 1 →
      Ready (moveLast s.clients s.nclients i j).revents →
      (moveLast s.clients s.nclients i j).fd ∈ s.reported := by
    intro j hj hlt
    rw [hkeep j hj]
    exact h.sound j (by omega) (by omega)
  refine ⟨fun hconnecting => ?_, fun j hj hlt => hall j hj (Nat.lt_of_succ_lt hlt), .inl ?_⟩
  · change Connecting (moveLast s.clients s.nclients i 0).revents at hconnecting
    rw [hzero] at hconnecting
    exact h.apart hconnecting
  · intro hlt
    change i + 1 + 1 ≤ s.nclients - 1 at hlt
    exact hall (s.nclients - 1 - 1) (by omega) (by omega)

/-- The scan starts behind a connection that was accepted into a sound entry, or
with a client ahead that will be overwritten by it. -/
theorem Ahead.connected (h : Inv s) {nready : ℤ} (hphase : s.phase = .testing nready)
    (hconnecting : Connecting (s.clients 0).revents) {cfd : ℕ}
    (hcfd : s.round.accepted = some cfd) (hfree : cfd ∉ s.net.opened)
    (hroom : s.nclients ≠ fopenMax) (hmore : nready - 1 ≠ 0)
    (hkept : ¬ s.ReadsLeft nready) {n : Sockets} {phase : Phase} :
    Ahead { s with
      clients := Function.update s.clients s.nclients
        { s.clients s.nclients with fd := cfd, events := pollRdNorm }
      nclients := s.nclients + 1
      net := n
      phase := phase } 1 := by
  have htested := h.tested nready hphase
  have hold : ∀ j < s.nclients, Function.update s.clients s.nclients
      { s.clients s.nclients with fd := cfd, events := pollRdNorm } j = s.clients j :=
    fun j hj => Function.update_of_ne hj.ne _ _
  have hpos : 0 < nready := by
    have hmem : 0 ∈ (Finset.range s.nclients).filter fun i => s.round.revents i ≠ 0 := by
      refine Finset.mem_filter.mpr ⟨Finset.mem_range.mpr h.count_pos, fun he => ?_⟩
      rw [htested.revents 0 h.count_pos, he] at hconnecting
      exact hconnecting (by decide)
    rw [htested.nready_eq]
    exact_mod_cast Finset.card_pos.mpr ⟨0, hmem⟩
  refine ⟨fun _ c hc => ?_, fun j hj hlt => ?_, ?_⟩
  · rw [hcfd] at hc
    cases hc
    exact fun hmem => hfree (htested.reported_open hmem)
  · change j + 1 < s.nclients + 1 at hlt
    change Ready (Function.update s.clients s.nclients _ j).revents →
      (Function.update s.clients s.nclients _ j).fd ∈ s.reported
    rw [hold j (by omega)]
    exact htested.sound j (by omega)
  · by_cases hleft : Ready (s.clients s.nclients).revents
    · -- the entry is wrong, so some client ahead ends
      right
      by_contra hnone
      push Not at hnone
      refine hkept ⟨hconnecting, by rw [hcfd]; rfl, lt_of_le_of_ne h.count_le hroom, by omega, hleft,
        fun i hone hi hready hended => ?_⟩
      refine hnone i hone (Nat.succ_lt_succ hi) ?_ hended
      change Ready (Function.update s.clients s.nclients _ i).revents
      rwa [hold i hi]
    · left
      intro _ hready
      refine absurd ?_ hleft
      change Ready (Function.update s.clients s.nclients _ s.nclients).revents at hready
      rwa [Function.update_self] at hready

/-- Without a round that reads what was left, every step keeps to the reports. -/
theorem Kept.next {t : State} {a : Action} (hk : Kept s) (h : Inv s) (hscan : Scanning s)
    (ha : ∀ r, a = .poll r → ¬ s.LeftReady r)
    (hstep : s.next a = some t) : Kept t := by
  cases next_moves hstep with
  | polled r =>
    refine ⟨fun nready hphase => ?_, fun i nready hphase => nomatch hphase⟩
    cases hphase
    rw [readsLeft_start_iff h]
    exact ha r rfl
  | refused => exact ⟨fun nready hphase => (nomatch hphase), fun i nready hphase => nomatch hphase⟩
  | accepted nready cfd n hphase hconnecting hcfd hn =>
    obtain ⟨hfree, -, -, -⟩ := Sockets.accept_spec hn
    unfold State.connected
    split
    next => exact ⟨fun _ he => (nomatch he), fun _ _ he => nomatch he⟩
    next u hu =>
      simp only [State.addClient, Option.ite_none_left_eq_some, Option.some.injEq] at hu
      obtain ⟨hroom, rfl⟩ := hu
      refine ⟨fun nready' he => ?_, fun i nready' he => ?_⟩
      · dsimp only at he
        split at he <;> cases he
      · dsimp only at he
        split at he
        · cases he
        · next hmore =>
          cases he
          exact Ahead.connected h hphase hconnecting hcfd hfree hroom hmore
            (hk.testing nready hphase)
  | unasked nready hphase hconnecting =>
    have htested := h.tested nready hphase
    refine ⟨fun _ he => (nomatch he), fun i nready' he => ?_⟩
    cases he
    refine ⟨fun hc => absurd hc hconnecting, fun j _ hj => htested.sound j (Nat.lt_of_succ_lt hj),
      .inl fun _ => htested.sound _ ?_⟩
    have hpos := h.count_pos
    change s.nclients - 1 < s.nclients
    omega
  | answered i nready hphase _ hi _ =>
    have hahead := hk.scanning i nready hphase
    unfold State.answer
    dsimp only
    split
    next =>
      refine ⟨fun _ he => (nomatch he), fun j nready' he => ?_⟩
      cases he
      exact hahead.overwritten (hscan i nready hphase) hi _ _
    next hstays =>
      refine ⟨fun _ he => (nomatch he), fun j nready' he => ?_⟩
      cases he
      exact hahead.pass (fun _ => hstays) _ _
  | skipped i nready hphase _ _ hready =>
    refine ⟨fun _ he => (nomatch he), fun j nready' he => ?_⟩
    cases he
    exact (hk.scanning i nready hphase).pass (fun hr => absurd hr hready) _ _
  | ended => exact ⟨fun _ he => (nomatch he), fun _ _ he => nomatch he⟩

/-- A state that keeps to the reports reads what was reported. -/
theorem Kept.readsReported (hk : Kept s) : s.ReadsReported := by
  intro i hreading
  unfold State.reading at hreading
  split at hreading
  next j nready hphase =>
    simp only [Option.ite_none_right_eq_some, Option.some.injEq] at hreading
    obtain ⟨⟨-, hi, hready⟩, rfl⟩ := hreading
    have hahead := hk.scanning j nready hphase
    have hreported := hahead.head hi hready
    exact ⟨hreported, fun hc he => hahead.apart hc _ he hreported⟩
  next => cases hreading

end Scan

/-- The statements of one round. -/
def round : System State Action := server.restrict fun _ a => a = .run

/-- A scan without clients at their end comes to every entry. -/
theorem scan_reaches {nready : ℤ} (hpos : 0 < nready) (k : ℕ) : ∀ {s : State} {i : ℕ},
    i + k ≤ s.nclients → s.phase = .scanning i nready →
    (∀ j, i ≤ j → j < i + k → Ready (s.clients j).revents → ¬(s.round.readings j).Ended) →
    ∃ t, round.Steps s t ∧ t.phase = .scanning (i + k) nready ∧ t.clients = s.clients ∧
      t.nclients = s.nclients ∧ t.reported = s.reported := by
  induction k with
  | zero => exact fun _ hphase _ => ⟨_, .refl, hphase, rfl, rfl, rfl⟩
  | succ k ih =>
    intro s i hi hphase hstays
    -- one entry is passed, whether it is read or not
    obtain ⟨n, hstep⟩ : ∃ n, s.run = some { s with net := n, phase := .scanning (i + 1) nready } := by
      simp only [State.run, hphase, if_pos (⟨hpos, by omega⟩ : nready > 0 ∧ i < s.nclients)]
      split
      next hready =>
        have hstay := hstays i le_rfl (by omega) hready
        refine ⟨processRequest (s.net.read (s.clients i).fd (s.round.readings i).bytes)
          (s.clients i).fd (s.round.readings i), ?_⟩
        simp only [State.answer, if_neg hstay]
      next => exact ⟨s.net, rfl⟩
    have hfirst : round.Steps s { s with net := n, phase := .scanning (i + 1) nready } :=
      .single ⟨.run, rfl, hstep⟩
    obtain ⟨t, hsteps, hscan, hclients, hcount, hreported⟩ :=
      ih (s := { s with net := n, phase := .scanning (i + 1) nready }) (i := i + 1)
        (show i + 1 + k ≤ s.nclients by omega) rfl
        fun j hj hlt => hstays j (Nat.le_of_succ_le hj) (by omega)
    refine ⟨t, hfirst.trans hsteps, ?_, hclients, hcount, hreported⟩
    rw [hscan, Nat.add_right_comm, Nat.add_assoc]

/-- With room and more reported entries, the scan starts behind the new entry. -/
theorem connected_eq {s : State} (hroom : s.nclients < fopenMax) {nready : ℤ} (cfd : ℕ)
    (hmore : ¬(nready - 1 = 0)) :
    s.connected nready cfd = { s with
      clients := Function.update s.clients s.nclients
        { s.clients s.nclients with fd := cfd, events := pollRdNorm }
      nclients := s.nclients + 1
      phase := .scanning 1 (nready - 1) } := by
  simp only [State.connected, State.addClient, if_neg hroom.ne, if_neg hmore]

/-- A round that finds its connection left ready reads it. -/
theorem LeftReady.read {s : State} (h : Inv s) {r : Round} (hl : s.LeftReady r)
    (hr : s.Admits r) : ∃ t, round.Steps (s.start r) t ∧ ¬ t.ReadsReported := by
  obtain ⟨cfd, hcfd⟩ := Option.isSome_iff_exists.mp hl.accepted
  have hstart := h.start r
  have hl' := (readsLeft_start_iff h r).mpr hl
  have hfree := hr cfd hcfd
  obtain ⟨n, hn⟩ : ∃ n, s.net.accept cfd = some n := ⟨_, if_neg hfree⟩
  have hmore : ¬((s.nready r : ℤ) - 1 = 0) := by
    have hanother := hl.another
    omega
  -- the connection goes into the entry that was left ready
  let u : State := { s.start r with
    clients := Function.update (s.polled r) s.nclients
      { s.polled r s.nclients with fd := cfd, events := pollRdNorm }
    nclients := s.nclients + 1
    net := n
    phase := .scanning 1 (s.nready r - 1) }
  have haccept : (s.start r).run = some u := by
    have hconnecting : Connecting ((s.start r).clients 0).revents := hl'.connecting
    have hround : (s.start r).round.accepted = some cfd := hcfd
    have hnet : (s.start r).net.accept cfd = some n := hn
    have hphase : (s.start r).phase = .testing (s.nready r) := rfl
    simp only [State.run, hphase, if_pos hconnecting, hround, hnet, Option.map_some]
    exact congrArg some (connected_eq (s := { s.start r with net := n }) hl.room cfd hmore)
  have hold : ∀ j < s.nclients, u.clients j = s.polled r j := fun j hj =>
    Function.update_of_ne hj.ne _ _
  have hpos : 0 < (s.nready r : ℤ) - 1 := by
    have hanother := hl.another
    omega
  obtain ⟨t, hsteps, hphase, hclients, hcount, hreported⟩ := scan_reaches hpos (s.nclients - 1)
    (s := u) (i := 1) (show 1 + (s.nclients - 1) ≤ s.nclients + 1 by omega) rfl
    (fun j hj hlt hready => by
      have hpos := h.count_pos
      rw [hold j (by omega)] at hready
      exact hl'.staying j hj (by change j < s.nclients; omega) hready)
  refine ⟨t, .head ⟨.run, rfl, haccept⟩ hsteps, fun hgood => ?_⟩
  have hindex : 1 + (s.nclients - 1) = s.nclients := by
    have hpos := h.count_pos
    omega
  have hnew : t.clients s.nclients =
      { s.polled r s.nclients with fd := cfd, events := pollRdNorm } := by
    rw [hclients]
    exact Function.update_self _ _ _
  have hready : Ready (t.clients s.nclients).revents := by
    rw [hnew]
    exact hl'.left
  have hreading : t.reading = some s.nclients := by
    rw [hindex] at hphase
    have hlt : s.nclients < t.nclients := hcount ▸ Nat.lt_succ_self s.nclients
    have hgo : (s.nready r : ℤ) - 1 > 0 ∧ s.nclients < t.nclients ∧
        Ready (t.clients s.nclients).revents := ⟨hpos, hlt, hready⟩
    simp only [State.reading, hphase, if_pos hgo]
  have hmem := (hgood s.nclients hreading).1
  rw [hnew, hreported] at hmem
  exact hfree ((hstart.tested _ rfl).reported_open hmem)

/-- In a run in which no round finds its connection left ready, every read is
on a descriptor that the same round reported. A round reads nothing else
exactly when it does not find its connection left ready. -/
theorem poll_reads_reported (s : State) :
    ((server.restrict fun s a => ∀ r, a = .poll r → ¬ s.LeftReady r).Reachable s →
      s.ReadsReported) ∧
    ∀ r, server.Reachable s → s.phase = .polling → s.Admits r →
      ((∀ t, round.Steps (s.start r) t → t.ReadsReported) ↔ ¬ s.LeftReady r) := by
  constructor
  · intro hs
    have hkept : Kept s := by
      refine System.Reachable.invariant (I := Kept) (fun s hs => ?_)
        (fun s a t hr hk hstep => ?_) hs
      · constructor
        · exact fun nready hphase => absurd (hs.phase_eq.symm.trans hphase) (by simp)
        · exact fun i nready hphase => absurd (hs.phase_eq.symm.trans hphase) (by simp)
      · obtain ⟨h, hscan⟩ := inv_reachable hr.of_restrict
        exact hk.next h hscan hstep.1 hstep.2
    exact hkept.readsReported
  · intro r hs hphase hr
    obtain ⟨h, -⟩ := inv_reachable hs
    constructor
    · intro hgood hl
      obtain ⟨t, hsteps, hbad⟩ := LeftReady.read h hl hr
      exact hbad (hgood t hsteps)
    · intro hl t hsteps
      have hall : Kept t ∧ server.Reachable t := by
        induction hsteps with
        | refl =>
          refine ⟨⟨fun nready he => ?_, fun i nready he => nomatch he⟩, hs.next (a := .poll r) ?_⟩
          · cases he
            exact fun hleft => hl ((readsLeft_start_iff h r).mp hleft)
          · exact if_pos hphase
        | tail _ hstep ih =>
          obtain ⟨a, ha, hnext⟩ := hstep
          obtain ⟨hk, hreach⟩ := ih
          obtain ⟨hinv, hscan⟩ := inv_reachable hreach
          refine ⟨hk.next hinv hscan (fun r' hr' => ?_) hnext, hreach.next hnext⟩
          rw [ha] at hr'
          cases hr'
      exact hall.1.readsReported

section Rounds

/-- A read at the end of the connection. -/
def silent : Reading maxMsgSize := ⟨List.replicate 256 0, [], length_zeros, length_nil_le⟩

/-- A read of one byte. -/
def talking : Reading maxMsgSize :=
  ⟨List.replicate 256 0, [1], length_zeros, length_one_le⟩

/-- A round with a new connection only. -/
def connects (cfd : ℕ) : Round :=
  ⟨fun i => if i = 0 then pollRdNorm else 0, some cfd, fun _ => talking⟩

/-- A round that reports every client, the first of them at its end. -/
def firstEnds : Round :=
  ⟨fun i => if i = 0 then 0 else pollRdNorm, none, fun i => if i = 1 then silent else talking⟩

/-- A round with a new connection that reports every client. -/
def allReady (cfd : ℕ) : Round := ⟨fun _ => pollRdNorm, some cfd, fun _ => talking⟩

/-- Two clients are reported and the first one is at its end: the last entry
moves over it, and stays ready behind. The next connection goes there. -/
theorem left_ready_read : ∃ s, server.Reachable s ∧ ¬ s.ReadsReported := by
  have hstart : server.Reachable ⟨fun i => if i = 0 then ⟨3, pollRdNorm, 0⟩ else ⟨0, 0, 0⟩, 1, 3,
      .start {0, 1, 2, 3}, .polling, connects 4, ∅⟩ := .start ⟨by decide, rfl, rfl, rfl, rfl, rfl⟩
  obtain ⟨s, hs, hbad⟩ := hstart.exists_of_any
    [.poll (connects 4), .run, .poll (connects 5), .run, .poll firstEnds, .run, .run, .run,
      .poll (allReady 6), .run, .run]
    (p := fun s => s.reading = some 2 ∧ (s.clients 2).fd ∉ s.reported) (by decide +kernel)
  simp only [Bool.decide_and, Bool.and_eq_true, decide_eq_true_eq] at hbad
  exact ⟨s, hs, fun hgood => hbad.2 (hgood 2 hbad.1).1⟩

end Rounds

end SistemasOperativos.PollServer
