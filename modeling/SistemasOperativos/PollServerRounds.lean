import SistemasOperativos.PollServerReports
import SistemasOperativos.SelectServerRounds

/-!
# The clients that a round of the poll server serves

The call of `process` is the scan of the other server, over the entries behind
the first one. The reported events move with an entry.
-/

namespace SistemasOperativos.PollServer

open TransitionRuns Connections DenseArray RemovingScan

/-- The descriptors read in a run, in order. -/
def reads (trace : List (Transition State Action)) : List ℕ :=
  trace.filterMap fun x => x.source.reading.map fun i => (x.source.clients i).fd

/-- The entries when `process` is called. -/
structure Entered (s : State) (nready : ℤ) : Prop where
  phase : s.phase = .testing nready
  count_pos : 1 ≤ s.nclients
  distinct : Distinct (fun i => (s.clients i).fd) s.nclients
  opened : ∀ i < s.nclients, (s.clients i).fd ∈ s.net.opened
  nready_eq : nready = ((Finset.range s.nclients).filter fun i => (s.clients i).revents ≠ 0).card

/-- `accept` does not fail. It returns a descriptor that is not in use. -/
def State.Connects (s : State) : Prop :=
  Connecting (s.clients 0).revents → ∃ cfd, s.round.accepted = some cfd ∧ cfd ∉ s.net.opened

/-- One call of `process`. What a read brings is part of the round. -/
structure Call (s t : State) (trace : List (Transition State Action)) : Prop where
  run : server.Run s trace t
  inside : ∀ x ∈ trace, ∀ r, x.label ≠ .poll r
  returned : t.phase = .polling

/-- Number of entries that the loop of `process` starts with. There is none when
a new connection finds no room. -/
def State.scanned (s : State) : ℕ :=
  if Connecting (s.clients 0).revents then if s.nclients = fopenMax then 0 else s.nclients + 1
  else s.nclients

/-- Number of ready clients before index `j` whose read ends them. -/
def State.endedBefore (s : State) (j : ℕ) : ℕ :=
  removals (fun x : PollFd => Ready x.revents) (fun i _ => (s.round.readings i).Ended) s.clients 1 j

/-- Every client that was registered and ready before the call is read from once. -/
def Served (s : State) (trace : List (Transition State Action)) : Prop :=
  ∀ j, 1 ≤ j → j < s.nclients → Ready (s.clients j).revents →
    (reads trace).count (s.clients j).fd = 1

/-- No ready client is so far behind that removals keep the scan from it. -/
def State.InReach (s : State) : Prop :=
  ∀ j < s.nclients, 1 ≤ j → Ready (s.clients j).revents → j + s.endedBefore j < s.scanned

instance (s : State) : Decidable s.InReach := inferInstanceAs (Decidable (∀ j < _, _ → _))

/-- In reachable states `process` finds the entries in order. -/
theorem entered_reachable {s : State} {nready : ℤ} (hs : server.Reachable s)
    (hphase : s.phase = .testing nready) : Entered s nready := by
  have hI := (inv_reachable hs).1
  have htested := hI.tested nready hphase
  refine ⟨hphase, hI.count_pos, hI.distinct, hI.opened, ?_⟩
  rw [htested.nready_eq]
  refine congrArg (fun m : Finset ℕ => (m.card : ℤ)) (Finset.filter_congr fun i hi => ?_)
  rw [htested.revents i (Finset.mem_range.mp hi)]

variable {s t u : State} {nready : ℤ}

/-- The array and the count with which the loop of `process` starts. -/
structure Scans (s : State) (f : ℕ → PollFd) (b : ℤ) : Prop where
  old : ∀ j < s.nclients, f j = s.clients j
  distinct : Distinct (fun i => (f i).fd) (max s.nclients s.scanned)
  budget : (((Finset.Ico 1 s.nclients).filter fun j => Ready (f j).revents).card : ℤ) ≤ b

/-- The scan that the call has made so far. -/
abbrev Scanned (s : State) (f : ℕ → PollFd) (b : ℤ) : Scan PollFd → Prop :=
  RemovingScan.Kept (fun x : PollFd => Ready x.revents) (fun i _ => (s.round.readings i).Ended) f 1
    s.scanned b

/-- How far a call has come. -/
def Progress (s : State) (served : List ℕ) (t : State) : Prop :=
  match t.phase with
  | .testing _ => t = s ∧ served = []
  | .scanning i nready => t.round = s.round ∧ ∃ f b l, Scans s f b ∧
      Scanned s f b ⟨i, t.nclients, nready, t.clients, l⟩ ∧ l.map PollFd.fd = served
  | .polling => ∃ f b scan, Scans s f b ∧ Scanned s f b scan ∧
      scan.next (fun x : PollFd => Ready x.revents) (fun i _ => (s.round.readings i).Ended) = none ∧
      scan.served.map PollFd.fd = served

/-- The number that `poll` returned covers the ready clients, and the connection. -/
theorem Entered.card_ready (h : Entered s nready) :
    (((Finset.Ico 1 s.nclients).filter fun j => Ready (s.clients j).revents).card : ℤ) ≤
      nready - if Connecting (s.clients 0).revents then 1 else 0 := by
  have hevents {i : ℕ} (hr : Ready (s.clients i).revents) : (s.clients i).revents ≠ 0 := by
    intro hzero
    rw [hzero] at hr
    exact hr (by decide)
  have hsub : (Finset.Ico 1 s.nclients).filter (fun j => Ready (s.clients j).revents) ⊆
      ((Finset.range s.nclients).filter fun i => (s.clients i).revents ≠ 0).erase 0 := by
    intro j hj
    obtain ⟨hrange, hr⟩ := Finset.mem_filter.mp hj
    obtain ⟨hlow, hhigh⟩ := Finset.mem_Ico.mp hrange
    refine Finset.mem_erase.mpr ⟨by omega, Finset.mem_filter.mpr ⟨Finset.mem_range.mpr hhigh, ?_⟩⟩
    exact hevents hr
  have hcard := Finset.card_le_card hsub
  rw [h.nready_eq]
  split
  · next hconnecting =>
    have hmem : 0 ∈ (Finset.range s.nclients).filter fun i => (s.clients i).revents ≠ 0 := by
      refine Finset.mem_filter.mpr ⟨Finset.mem_range.mpr h.count_pos, fun hzero => ?_⟩
      rw [hzero] at hconnecting
      exact hconnecting (by decide)
    have hpos := Finset.card_pos.mpr ⟨0, hmem⟩
    rw [Finset.card_erase_of_mem hmem] at hcard
    omega
  · have hle := hcard.trans (Finset.card_erase_le)
    omega

/-- The loop starts over the entries as they were when there is no new connection. -/
theorem Entered.scans (h : Entered s nready) (hquiet : ¬ Connecting (s.clients 0).revents) :
    Scans s s.clients nready ∧ s.scanned = s.nclients := by
  have hscanned : s.scanned = s.nclients := if_neg hquiet
  have hcard := h.card_ready
  rw [if_neg hquiet, sub_zero] at hcard
  refine ⟨⟨fun _ _ => rfl, ?_, hcard⟩, hscanned⟩
  rw [hscanned, max_self]
  exact h.distinct

/-- With a new connection it starts over one more, or not at all. -/
theorem Entered.scans_accepted (h : Entered s nready)
    (hconnecting : Connecting (s.clients 0).revents) {cfd : ℕ} (hfree : cfd ∉ s.net.opened) :
    Scans s (Function.update s.clients s.nclients
      { s.clients s.nclients with fd := cfd, events := pollRdNorm }) (nready - 1) := by
  have hold : ∀ j < s.nclients, Function.update s.clients s.nclients
      { s.clients s.nclients with fd := cfd, events := pollRdNorm } j = s.clients j :=
    fun j hj => Function.update_of_ne hj.ne _ _
  have hfd : (fun i => (Function.update s.clients s.nclients
      { s.clients s.nclients with fd := cfd, events := pollRdNorm } i).fd) =
      Function.update (fun i => (s.clients i).fd) s.nclients cfd :=
    Function.comp_update PollFd.fd _ _ _
  have hpush : Distinct (Function.update (fun i => (s.clients i).fd) s.nclients cfd)
      (s.nclients + 1) := h.distinct.push fun i hi he => hfree (he ▸ h.opened i hi)
  have hle : max s.nclients s.scanned ≤ s.nclients + 1 := by
    rw [State.scanned, if_pos hconnecting]
    split <;> omega
  have hcard := h.card_ready
  rw [if_pos hconnecting] at hcard
  refine ⟨hold, fun i hi j hj => ?_, le_trans ?_ hcard⟩
  · rw [hfd]
    exact hpush i (hi.trans_le hle) j (hj.trans_le hle)
  · refine Int.ofNat_le.mpr (Finset.card_le_card fun j hj => ?_)
    obtain ⟨hrange, hr⟩ := Finset.mem_filter.mp hj
    rw [hold j (Finset.mem_Ico.mp hrange).2] at hr
    exact Finset.mem_filter.mpr ⟨hrange, hr⟩

/-- The call goes on from the new connection. -/
theorem Entered.connected (h : Entered s nready) (hconnecting : Connecting (s.clients 0).revents)
    {cfd : ℕ} {n : Sockets} (hn : s.net.accept cfd = some n) :
    Progress s [] ({ s with net := n }.connected nready cfd) := by
  obtain ⟨hfree, -, -, -⟩ := Sockets.accept_spec hn
  have hscans := h.scans_accepted hconnecting hfree
  have hstart : Scanned s _ (nready - 1) ⟨1, s.scanned, nready - 1, Function.update s.clients
      s.nclients { s.clients s.nclients with fd := cfd, events := pollRdNorm }, []⟩ := kept_start ..
  unfold Progress State.connected
  by_cases hfull : s.nclients = fopenMax
  · have hscanned : s.scanned = 0 := by rw [State.scanned, if_pos hconnecting, if_pos hfull]
    rw [State.addClient, if_pos hfull]
    refine ⟨_, _, _, hscans, hstart, ?_, rfl⟩
    rw [hscanned]
    rfl
  · have hscanned : s.scanned = s.nclients + 1 := by
      rw [State.scanned, if_pos hconnecting, if_neg hfull]
    rw [State.addClient, if_neg hfull]
    dsimp only
    by_cases hlast : nready - 1 = 0
    · rw [if_pos hlast]
      refine ⟨_, _, _, hscans, hstart, ?_, rfl⟩
      rw [Scan.next, if_neg fun hgo => ?_]
      have hpos : 0 < nready - 1 := hgo.2
      omega
    · rw [if_neg hlast]
      exact ⟨rfl, _, _, [], hscans, hscanned ▸ hstart, rfl⟩

/-- A ready entry is a step of the scan. -/
theorem Scanned.answer {f : ℕ → PollFd} {b : ℤ} {i : ℕ} {l : List PollFd}
    (hscan : Scanned s f b ⟨i, t.nclients, nready, t.clients, l⟩)
    (hgo : i < t.nclients ∧ nready > 0) (hready : Ready (t.clients i).revents)
    (hround : t.round = s.round) (hscans : Scans s f b) :
    Progress s (l.map PollFd.fd ++ [(t.clients i).fd]) (t.answer i nready) := by
  have hnext (scan : Scan PollFd) (he : Scan.next (fun x : PollFd => Ready x.revents)
      (fun i _ => (s.round.readings i).Ended) ⟨i, t.nclients, nready, t.clients, l⟩ = some scan) :=
    RemovingScan.Kept.next hscan he
  simp only [Scan.next, if_pos hgo, if_pos hready, ← hround] at hnext
  unfold Progress State.answer
  dsimp only
  by_cases hended : (t.round.readings i).Ended
  · rw [if_pos hended]
    exact ⟨hround, f, b, _, hscans, hround ▸ hnext _ (if_pos hended), by simp⟩
  · rw [if_neg hended]
    exact ⟨hround, f, b, _, hscans, hround ▸ hnext _ (if_neg hended), by simp⟩

/-- Every statement of the call takes it on. -/
theorem Progress.step {served : List ℕ} {a : Action} (hs : Entered s nready)
    (h : Progress s served t) (hnext : t.next a = some u) (hinside : ∀ r, a ≠ .poll r)
    (hconnects : s.Connects) :
    Progress s (served ++ (t.reading.map fun i => (t.clients i).fd).toList) u := by
  unfold Progress at h
  cases a with
  | poll r => exact absurd rfl (hinside r)
  | run =>
    simp only [State.next, State.run] at hnext
    split at hnext
    next => cases hnext
    next nready' hphase =>
      rw [hphase] at h
      obtain ⟨rfl, rfl⟩ := h
      have hreading : t.reading = none := by simp only [State.reading, hphase]
      rw [hs.phase] at hphase
      cases hphase
      rw [hreading]
      split at hnext
      next hconnecting =>
        split at hnext
        next hnone =>
          obtain ⟨cfd, hcfd, -⟩ := hconnects hconnecting
          exact absurd (hnone.symm.trans hcfd) (by simp)
        next cfd hcfd =>
          obtain ⟨n, hn, rfl⟩ := Option.map_eq_some_iff.mp hnext
          exact hs.connected hconnecting hn
      next hquiet =>
        cases hnext
        obtain ⟨hscans, hscanned⟩ := hs.scans hquiet
        exact ⟨rfl, _, _, [], hscans, hscanned ▸ kept_start .., rfl⟩
    next i nready' hphase =>
      rw [hphase] at h
      obtain ⟨hround, f, b, l, hscans, hscan, rfl⟩ := h
      split at hnext
      next hgo =>
        split at hnext
        next hready =>
          cases hnext
          have hreading : t.reading = some i := by
            simp only [State.reading, hphase]
            exact if_pos ⟨hgo.1, hgo.2, hready⟩
          rw [hreading]
          exact Scanned.answer hscan hgo.symm hready hround hscans
        next hready =>
          cases hnext
          have hreading : t.reading = none := by
            simp only [State.reading, hphase]
            exact if_neg fun hall => hready hall.2.2
          rw [hreading, Option.map_none, Option.toList_none, List.append_nil]
          refine ⟨hround, f, b, l, hscans, RemovingScan.Kept.next hscan ?_, rfl⟩
          simp only [Scan.next, if_pos hgo.symm, if_neg hready]
      next hstop =>
        cases hnext
        have hreading : t.reading = none := by
          simp only [State.reading, hphase]
          exact if_neg fun hall => hstop ⟨hall.1, hall.2.1⟩
        rw [hreading, Option.map_none, Option.toList_none, List.append_nil]
        exact ⟨f, b, _, hscans, hscan, if_neg fun hgo => hstop hgo.symm, rfl⟩

/-- A call comes to an end of its scan, with the reads of its run. -/
theorem Call.progress {trace : List (Transition State Action)} (hs : Entered s nready)
    (hconnects : s.Connects) (h : Call s t trace) : Progress s (reads trace) t := by
  obtain ⟨hrun, hinside, -⟩ := h
  induction hrun with
  | nil =>
    unfold Progress
    rw [hs.phase]
    exact ⟨rfl, rfl⟩
  | @snoc v w a trace hr hstep ih =>
    have hbefore := ih fun x hx => hinside x (List.mem_append_left _ hx)
    have hlast : (⟨v, a, w⟩ : Transition State Action) ∈ trace ++ [⟨v, a, w⟩] :=
      List.mem_append_right _ (List.mem_singleton.mpr rfl)
    have hafter := hbefore.step hs hstep (hinside _ hlast) hconnects
    have hreads : reads (trace ++ [⟨v, a, w⟩]) =
        reads trace ++ (v.reading.map fun i => (v.clients i).fd).toList := by
      simp only [reads, List.filterMap_append, List.filterMap_cons, List.filterMap_nil]
      cases v.reading <;> rfl
    rw [hreads]
    exact hafter

/-- A call reads from every ready client once exactly if, for each of them, its
index and the number of ready clients before it that end add up to less than the
number of entries that the loop starts with. -/
theorem Call.reads_iff {trace : List (Transition State Action)} (hs : Entered s nready)
    (hconnects : s.Connects) (h : Call s t trace) : Served s trace ↔ s.InReach := by
  have hprogress := h.progress hs hconnects
  unfold Progress at hprogress
  rw [h.returned] at hprogress
  obtain ⟨f, b, scan, hscans, hscan, hstop, hserved⟩ := hprogress
  have hiff := hscan.served_once_iff hstop PollFd.fd (le_max_right s.nclients s.scanned)
    (fun i _ hi j _ hj => hscans.distinct i hi j hj) (le_max_left s.nclients s.scanned)
    hscans.budget
  rw [hserved] at hiff
  refine Iff.trans ?_ (hiff.trans ?_)
  · refine forall_congr' fun j => forall_congr' fun _ => forall_congr' fun hj => ?_
    rw [hscans.old j hj]
  · refine forall_congr' fun j => forall_comm.trans (forall_congr' fun hj => forall_congr' fun _ => ?_)
    rw [hscans.old j hj, removals_congr (g := s.clients) fun i _ hi => hscans.old i (hi.trans hj),
      State.endedBefore]

/-- A call goes on to an end from any place in its loop. -/
theorem Call.of_scanning {i : ℕ} (hphase : s.phase = .scanning i nready) :
    ∃ t trace, Call s t trace := by
  obtain ⟨n, hn⟩ : ∃ n, n = s.nclients - i := ⟨_, rfl⟩
  induction n using Nat.strong_induction_on generalizing s i nready with
  | _ n ih =>
    by_cases hgo : nready > 0 ∧ i < s.nclients
    · have hnext {u : State} (hstep : s.next .run = some u) {nready' : ℤ}
          (hu : u.phase = .scanning (i + 1) nready') (hle : u.nclients ≤ s.nclients) :
          ∃ t trace, Call s t trace := by
        obtain ⟨t, trace, hcall⟩ := ih (u.nclients - (i + 1)) (by omega) hu rfl
        exact ⟨t, ⟨s, .run, u⟩ :: trace, hcall.run.cons hstep,
          List.forall_mem_cons.mpr ⟨(fun r he => by cases he), hcall.inside⟩, hcall.returned⟩
      by_cases hready : Ready (s.clients i).revents
      · have hstep : s.next .run = some (s.answer i nready) := by
          simp only [State.next, State.run, hphase, if_pos hgo, if_pos hready]
        by_cases hended : (s.round.readings i).Ended
        · simp only [State.answer, if_pos hended] at hstep
          exact hnext hstep rfl (Nat.sub_le _ _)
        · simp only [State.answer, if_neg hended] at hstep
          exact hnext hstep rfl le_rfl
      · have hstep : s.next .run = some { s with phase := .scanning (i + 1) nready } := by
          simp only [State.next, State.run, hphase, if_pos hgo, if_neg hready]
        exact hnext hstep rfl le_rfl
    · have hstep : s.next .run = some { s with phase := .polling } := by
        simp only [State.next, State.run, hphase, if_neg hgo]
      refine ⟨_, _, (System.Run.nil _).snoc hstep, ?_, rfl⟩
      exact List.forall_mem_singleton.mpr fun r he => by cases he

/-- Every call comes to an end. -/
theorem Entered.exists_call (h : Entered s nready) (hconnects : s.Connects) :
    ∃ t trace, Call s t trace := by
  have hnext {u : State} (hstep : s.next .run = some u)
      (hu : u.phase = .polling ∨ ∃ i nready, u.phase = .scanning i nready) :
      ∃ t trace, Call s t trace := by
    rcases hu with hu | ⟨i, nready', hu⟩
    · refine ⟨u, _, (System.Run.nil _).snoc hstep, ?_, hu⟩
      exact List.forall_mem_singleton.mpr fun r he => (nomatch he)
    · obtain ⟨t, trace, hcall⟩ := Call.of_scanning hu
      exact ⟨t, ⟨s, .run, u⟩ :: trace, hcall.run.cons hstep,
        List.forall_mem_cons.mpr ⟨fun r he => (nomatch he), hcall.inside⟩, hcall.returned⟩
  by_cases hconnecting : Connecting (s.clients 0).revents
  · obtain ⟨cfd, hcfd, hfree⟩ := hconnects hconnecting
    obtain ⟨n, hn⟩ : ∃ n, s.net.accept cfd = some n := ⟨_, if_neg hfree⟩
    have hstep : s.next .run = some ({ s with net := n }.connected nready cfd) := by
      simp only [State.next, State.run, h.phase, if_pos hconnecting, hcfd, hn, Option.map_some]
    refine hnext hstep ?_
    unfold State.connected
    split
    · exact .inl rfl
    · dsimp only
      split
      · exact .inl rfl
      · exact .inr ⟨_, _, rfl⟩
  · have hstep : s.next .run = some { s with phase := .scanning 1 nready } := by
      simp only [State.next, State.run, h.phase, if_neg hconnecting]
    exact hnext hstep (.inr ⟨_, _, rfl⟩)

end SistemasOperativos.PollServer
