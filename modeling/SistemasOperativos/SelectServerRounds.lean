import SistemasOperativos.RemovingScan
import SistemasOperativos.SelectServerRegistry

/-!
# The clients that a round of the select server serves

One call of `process` is a scan that removes the clients at their end from the
array under it, behind the test for a new connection.
-/

namespace SistemasOperativos.SelectServer

open TransitionRuns Connections DenseArray RemovingScan

/-- The descriptors read in a run, in order. -/
def reads (trace : List (Transition State Action)) : List ℕ :=
  trace.filterMap fun x => x.source.reading

/-- The registry and the set of ready descriptors when `process` is called. -/
structure Entered (s : State) (nready : ℤ) : Prop where
  phase : s.phase = .testing nready
  distinct : Distinct s.clients s.nclients
  opened : ∀ i < s.nclients, s.clients i ∈ s.net.opened
  apart : s.listenfd ∉ s.registered
  /-- `select` reports the descriptors that it watches. -/
  reported : s.rset ⊆ insert s.listenfd s.registered
  nready_eq : nready = s.rset.card

/-- What may happen in one call of `process`. `accept` does not fail, and a read
brings what there is in this call for its descriptor. -/
def State.Inside (s : State) (outcome : ℕ → Reading maxMsgSize) : Action → Prop
  | .select _ => False
  | .accept result => result ≠ none
  | .read r => ∀ cfd ∈ s.reading, r = outcome cfd
  | .run => True

/-- One call of `process`, with what a read from each descriptor brings in it. -/
structure Call (s t : State) (trace : List (Transition State Action))
    (outcome : ℕ → Reading maxMsgSize) : Prop where
  run : server.Run s trace t
  inside : ∀ x ∈ trace, x.source.Inside outcome x.label
  returned : t.phase = .selecting

/-- Number of clients that the loop of `process` starts with. There is none when
a new connection finds no room. -/
def State.scanned (s : State) : ℕ :=
  if s.listenfd ∈ s.rset then if s.nclients = s.maxclients then 0 else s.nclients + 1
  else s.nclients

/-- Number of ready clients before index `j` whose read ends them. -/
def State.endedBefore (s : State) (outcome : ℕ → Reading maxMsgSize) (j : ℕ) : ℕ :=
  removals (· ∈ s.rset) (fun _ cfd => (outcome cfd).Ended) s.clients 0 j

/-- Every client that was registered and ready before the call is read from once. -/
def Served (s : State) (trace : List (Transition State Action)) : Prop :=
  ∀ cfd ∈ s.registered, cfd ∈ s.rset → (reads trace).count cfd = 1

/-- No ready client is so far behind that removals keep the scan from it. -/
def State.InReach (s : State) (outcome : ℕ → Reading maxMsgSize) : Prop :=
  ∀ j < s.nclients, s.clients j ∈ s.rset → j + s.endedBefore outcome j < s.scanned

instance (s : State) (outcome : ℕ → Reading maxMsgSize) : Decidable (s.InReach outcome) :=
  inferInstanceAs (Decidable (∀ j < _, _ → _))

/-- In reachable states `process` finds registry and report in order. -/
theorem entered_reachable {s : State} {nready : ℤ} (hs : server.Reachable s)
    (hphase : s.phase = .testing nready) : Entered s nready := by
  have hI := inv_reachable hs
  have hreport : ∀ nready, s.phase = .testing nready → s.rset ⊆ s.allset ∧ nready = s.rset.card := by
    refine System.Reachable.invariant (I := fun s => ∀ nready, s.phase = .testing nready →
      s.rset ⊆ s.allset ∧ nready = s.rset.card) ?_ ?_ hs
    · rintro s rfl nready hphase
      cases hphase
    · intro s a t _ _ hstep nready hphase
      cases next_moves hstep with
      | selected ready _ hready =>
        cases hphase
        exact ⟨hready.trans (Finset.filter_subset _ _), rfl⟩
      | accepted nready' cfd n =>
        unfold State.connected at hphase
        split at hphase
        · cases hphase
        · dsimp only at hphase
          split at hphase <;> cases hphase
      | answered i nready' r =>
        unfold State.answer at hphase
        split at hphase <;> cases hphase
      | _ => cases hphase
  obtain ⟨hsub, hcard⟩ := hreport nready hphase
  have hopened (i : ℕ) (hi : i < s.nclients) : s.clients i ∈ s.net.opened := by
    rw [hI.opened_eq]
    exact Finset.mem_union_right _ (mem_members.mpr ⟨i, hi, rfl⟩)
  refine ⟨hphase, hI.distinct, hopened, fun hmem => ?_, hI.allset_eq ▸ hsub, hcard⟩
  exact Finset.disjoint_left.mp hI.apart (by simp) hmem

variable {s t u : State} {nready : ℤ} {outcome : ℕ → Reading maxMsgSize}

/-- The array and the count with which the loop of `process` starts. -/
structure Scans (s : State) (f : ℕ → ℕ) (b : ℤ) : Prop where
  old : ∀ j < s.nclients, f j = s.clients j
  distinct : Distinct f (max s.nclients s.scanned)
  budget : (((Finset.Ico 0 s.nclients).filter fun j => f j ∈ s.rset).card : ℤ) ≤ b

/-- The scan that the call has made so far. -/
abbrev Scanned (s : State) (outcome : ℕ → Reading maxMsgSize) (f : ℕ → ℕ) (b : ℤ) :
    Scan ℕ → Prop :=
  Kept (· ∈ s.rset) (fun _ cfd => (outcome cfd).Ended) f 0 s.scanned b

/-- How far a call has come. -/
def Progress (s : State) (outcome : ℕ → Reading maxMsgSize) (served : List ℕ) (t : State) : Prop :=
  match t.phase with
  | .testing _ => t = s ∧ served = []
  | .scanning i nready => t.rset = s.rset ∧ ∃ f b, Scans s f b ∧
      Scanned s outcome f b ⟨i, t.nclients, nready, t.clients, served⟩
  | .selecting => ∃ f b scan, Scans s f b ∧ Scanned s outcome f b scan ∧
      scan.next (· ∈ s.rset) (fun _ cfd => (outcome cfd).Ended) = none ∧ scan.served = served

/-- As many clients are ready as descriptors, but for the listening one. -/
theorem Entered.card_ready (h : Entered s nready) :
    (((Finset.Ico 0 s.nclients).filter fun j => s.clients j ∈ s.rset).card : ℤ) =
      nready - if s.listenfd ∈ s.rset then 1 else 0 := by
  have himage : ((Finset.Ico 0 s.nclients).filter fun j => s.clients j ∈ s.rset).image s.clients =
      s.rset.erase s.listenfd := by
    ext cfd
    simp only [Finset.mem_image, Finset.mem_filter, Finset.mem_Ico, Finset.mem_erase]
    constructor
    · rintro ⟨j, ⟨⟨-, hj⟩, hmem⟩, rfl⟩
      exact ⟨fun he => h.apart (he ▸ mem_members.mpr ⟨j, hj, rfl⟩), hmem⟩
    · rintro ⟨hne, hmem⟩
      obtain ⟨j, hj, rfl⟩ := mem_members.mp
        ((Finset.mem_insert.mp (h.reported hmem)).resolve_left hne)
      exact ⟨j, ⟨⟨Nat.zero_le j, hj⟩, hmem⟩, rfl⟩
  have hcard := congrArg Finset.card himage
  rw [Finset.card_image_of_injOn, Finset.card_erase_eq_ite] at hcard
  · rw [hcard, h.nready_eq]
    split
    · next hmem =>
      have hpos := Finset.card_pos.mpr ⟨_, hmem⟩
      omega
    · omega
  · intro i hi j hj hij
    simp only [Finset.coe_filter, Finset.mem_Ico, Set.mem_ofPred_eq] at hi hj
    exact h.distinct i hi.1.2 j hj.1.2 hij

/-- The loop starts over the registry as it was when there is no new connection. -/
theorem Entered.scans (h : Entered s nready) (hlisten : s.listenfd ∉ s.rset) :
    Scans s s.clients nready ∧ s.scanned = s.nclients := by
  have hscanned : s.scanned = s.nclients := if_neg hlisten
  have hcard := h.card_ready
  rw [if_neg hlisten, sub_zero] at hcard
  refine ⟨⟨fun _ _ => rfl, ?_, hcard.le⟩, hscanned⟩
  rw [hscanned, max_self]
  exact h.distinct

/-- With a new connection it starts over a longer one, or not at all. -/
theorem Entered.scans_accepted (h : Entered s nready) (hlisten : s.listenfd ∈ s.rset) {cfd : ℕ}
    (hfree : cfd ∉ s.net.opened) :
    Scans s (Function.update s.clients s.nclients cfd) (nready - 1) := by
  have hold : ∀ j < s.nclients, Function.update s.clients s.nclients cfd j = s.clients j :=
    fun j hj => Function.update_of_ne hj.ne _ _
  have hpush : Distinct (Function.update s.clients s.nclients cfd) (s.nclients + 1) :=
    h.distinct.push fun i hi he => hfree (he ▸ h.opened i hi)
  have hle : max s.nclients s.scanned ≤ s.nclients + 1 := by
    rw [State.scanned, if_pos hlisten]
    split <;> omega
  have hcard := h.card_ready
  rw [if_pos hlisten] at hcard
  refine ⟨hold, fun i hi j hj => hpush i (hi.trans_le hle) j (hj.trans_le hle), ?_⟩
  rw [← hcard]
  refine Int.ofNat_le.mpr (Finset.card_le_card fun j hj => ?_)
  obtain ⟨hrange, hmem⟩ := Finset.mem_filter.mp hj
  rw [hold j (Finset.mem_Ico.mp hrange).2] at hmem
  exact Finset.mem_filter.mpr ⟨hrange, hmem⟩

/-- The call goes on from the new connection. -/
theorem Entered.connected (h : Entered s nready) (hlisten : s.listenfd ∈ s.rset) {cfd : ℕ}
    {n : Sockets} (hn : s.net.accept cfd = some n) :
    Progress s outcome [] ({ s with net := n }.connected nready cfd) := by
  obtain ⟨hfree, -, -, -⟩ := Sockets.accept_spec hn
  have hscans := h.scans_accepted hlisten hfree
  have hstart : Scanned s outcome (Function.update s.clients s.nclients cfd) (nready - 1)
      ⟨0, s.scanned, nready - 1, Function.update s.clients s.nclients cfd, []⟩ := kept_start ..
  unfold Progress State.connected
  by_cases hfull : s.nclients = s.maxclients
  · have hscanned : s.scanned = 0 := by rw [State.scanned, if_pos hlisten, if_pos hfull]
    rw [if_pos hfull]
    refine ⟨_, _, _, hscans, hstart, ?_, rfl⟩
    rw [hscanned]
    rfl
  · have hscanned : s.scanned = s.nclients + 1 := by
      rw [State.scanned, if_pos hlisten, if_neg hfull]
    rw [if_neg hfull, State.addClient, if_neg hfull]
    dsimp only
    by_cases hlast : nready - 1 = 0
    · rw [if_pos hlast]
      refine ⟨_, _, _, hscans, hstart, ?_, rfl⟩
      rw [Scan.next, if_neg fun hgo => ?_]
      have hpos : 0 < nready - 1 := hgo.2
      omega
    · rw [if_neg hlast]
      exact ⟨rfl, _, _, hscans, hscanned ▸ hstart⟩

/-- A statement of the loop is a step of the scan. -/
theorem Scanned.answer {f : ℕ → ℕ} {b : ℤ} {i : ℕ} {served : List ℕ} {r : Reading maxMsgSize}
    (hscan : Scanned s outcome f b ⟨i, t.nclients, nready, t.clients, served⟩)
    (hgo : i < t.nclients ∧ nready > 0) (hready : t.clients i ∈ s.rset)
    (hr : r = outcome (t.clients i)) (hrset : t.rset = s.rset) (hscans : Scans s f b) :
    Progress s outcome (served ++ [t.clients i]) (t.answer (t.clients i) i nready r) := by
  have hnext (scan : Scan ℕ) (he : Scan.next (· ∈ s.rset) (fun _ cfd => (outcome cfd).Ended)
      ⟨i, t.nclients, nready, t.clients, served⟩ = some scan) := Kept.next hscan he
  simp only [Scan.next, if_pos hgo, if_pos hready, ← hr] at hnext
  unfold Progress State.answer
  by_cases hended : r.Ended
  · rw [if_pos hended]
    exact ⟨hrset, f, b, hscans, hnext _ (if_pos hended)⟩
  · rw [if_neg hended]
    exact ⟨hrset, f, b, hscans, hnext _ (if_neg hended)⟩

/-- Every statement of the call takes it on. -/
theorem Progress.step {served : List ℕ} {a : Action} (hs : Entered s nready)
    (h : Progress s outcome served t) (hnext : t.next a = some u) (hinside : t.Inside outcome a) :
    Progress s outcome (served ++ t.reading.toList) u := by
  unfold Progress at h
  cases a with
  | select ready => exact hinside.elim
  | accept result =>
    simp only [State.next] at hnext
    split at hnext
    next nready' hphase =>
      rw [hphase] at h
      obtain ⟨rfl, rfl⟩ := h
      have hreading : t.reading = none := by simp only [State.reading, hphase]
      rw [hs.phase] at hphase
      cases hphase
      split at hnext
      next hlisten =>
        cases result with
        | none => exact absurd rfl hinside
        | some cfd =>
          simp only [Option.ite_none_right_eq_some, Option.map_eq_some_iff] at hnext
          obtain ⟨-, n, hn, rfl⟩ := hnext
          rw [hreading]
          exact hs.connected hlisten hn
      next => cases hnext
    next => cases hnext
  | read r =>
    simp only [State.next] at hnext
    split at hnext
    next i nready' hphase =>
      rw [hphase] at h
      obtain ⟨hrset, f, b, hscans, hscan⟩ := h
      obtain ⟨cfd, hreading, rfl⟩ := Option.map_eq_some_iff.mp hnext
      rw [hreading]
      have hread := hreading
      simp only [State.reading, hphase, Option.ite_none_right_eq_some, Option.some.injEq] at hread
      obtain ⟨⟨hi, hpos, hready⟩, rfl⟩ := hread
      exact Scanned.answer hscan ⟨hi, hpos⟩ (hrset ▸ hready) (hinside _ hreading) hrset hscans
    next => cases hnext
  | run =>
    simp only [State.next] at hnext
    split at hnext
    next => cases hnext
    next nready' hphase =>
      rw [hphase] at h
      obtain ⟨rfl, rfl⟩ := h
      have hreading : t.reading = none := by simp only [State.reading, hphase]
      rw [hs.phase] at hphase
      cases hphase
      split at hnext
      next => cases hnext
      next hlisten =>
        cases hnext
        obtain ⟨hscans, hscanned⟩ := hs.scans hlisten
        rw [hreading]
        exact ⟨rfl, _, _, hscans, hscanned ▸ kept_start ..⟩
    next i nready' hphase =>
      rw [hphase] at h
      obtain ⟨hrset, f, b, hscans, hscan⟩ := h
      split at hnext
      next hgo =>
        split at hnext
        next => cases hnext
        next hready =>
          cases hnext
          have hreading : t.reading = none := by
            simp only [State.reading, hphase]
            exact if_neg fun hall => hready hall.2.2
          rw [hreading, Option.toList_none, List.append_nil]
          rw [hrset] at hready
          refine ⟨hrset, f, b, hscans, Kept.next hscan ?_⟩
          simp only [Scan.next, if_pos hgo, if_neg hready]
      next hstop =>
        cases hnext
        have hreading : t.reading = none := by
          simp only [State.reading, hphase]
          exact if_neg fun hall => hstop ⟨hall.1, hall.2.1⟩
        rw [hreading, Option.toList_none, List.append_nil]
        exact ⟨f, b, _, hscans, hscan, if_neg hstop, rfl⟩

/-- A call comes to an end of its scan, with the reads of its run. -/
theorem Call.progress {trace : List (Transition State Action)} (hs : Entered s nready)
    (h : Call s t trace outcome) : Progress s outcome (reads trace) t := by
  obtain ⟨hrun, hinside, -⟩ := h
  induction hrun with
  | nil =>
    unfold Progress
    rw [hs.phase]
    exact ⟨rfl, rfl⟩
  | @snoc v w a trace hr hstep ih =>
    have hbefore := ih fun x hx => hinside x (List.mem_append_left _ hx)
    have hlast : (⟨v, a, w⟩ : Transition State Action) ∈ trace ++ [⟨v, a, w⟩] :=
      List.mem_append_right _ (List.mem_singleton.mpr rfl)
    have hafter := hbefore.step hs hstep (hinside _ hlast)
    have hreads : reads (trace ++ [⟨v, a, w⟩]) = reads trace ++ v.reading.toList := by
      simp only [reads, List.filterMap_append, List.filterMap_cons, List.filterMap_nil]
      cases v.reading <;> rfl
    rw [hreads]
    exact hafter

/-- A call reads from every ready client once exactly if, for each of them, its
index and the number of ready clients before it that end add up to less than the
number of clients that the loop starts with. -/
theorem Call.reads_iff {trace : List (Transition State Action)} (hs : Entered s nready)
    (h : Call s t trace outcome) : Served s trace ↔ s.InReach outcome := by
  have hprogress := h.progress hs
  unfold Progress at hprogress
  rw [h.returned] at hprogress
  obtain ⟨f, b, scan, hscans, hscan, hstop, hserved⟩ := hprogress
  have hiff := hscan.served_once_iff hstop id (le_max_right s.nclients s.scanned)
    (fun i _ hi j _ hj => hscans.distinct i hi j hj) (le_max_left s.nclients s.scanned)
    hscans.budget
  rw [List.map_id, hserved] at hiff
  constructor
  · intro hall j hj hready
    have hj' := hiff.mp (fun i _ hi hr => ?_) j (Nat.zero_le j) hj (hscans.old j hj ▸ hready)
    · rw [removals_congr (g := s.clients) fun i _ hi => hscans.old i (hi.trans hj)] at hj'
      exact hj'
    · rw [hscans.old i hi] at hr ⊢
      exact hall _ (mem_members.mpr ⟨i, hi, rfl⟩) hr
  · intro hall cfd hcfd hready
    obtain ⟨j, hj, rfl⟩ := mem_members.mp hcfd
    have hj' := hiff.mpr (fun i _ hi hr => ?_) j (Nat.zero_le j) hj (hscans.old j hj ▸ hready)
    · rw [hscans.old j hj] at hj'
      exact hj'
    · rw [hscans.old i hi] at hr
      rw [removals_congr (g := s.clients) fun k _ hk => hscans.old k (hk.trans hi)]
      exact hall i hi hr

/-- A call goes on to an end from any place in its loop. -/
theorem Call.of_scanning (outcome : ℕ → Reading maxMsgSize) {i : ℕ}
    (hphase : s.phase = .scanning i nready) : ∃ t trace, Call s t trace outcome := by
  obtain ⟨n, hn⟩ : ∃ n, n = s.nclients - i := ⟨_, rfl⟩
  induction n using Nat.strong_induction_on generalizing s i nready with
  | _ n ih =>
    by_cases hgo : i < s.nclients ∧ nready > 0
    · have hnext {a : Action} {u : State} (hinside : s.Inside outcome a) (hstep : s.next a = some u)
          {nready' : ℤ} (hu : u.phase = .scanning (i + 1) nready') (hle : u.nclients ≤ s.nclients) :
          ∃ t trace, Call s t trace outcome := by
        obtain ⟨t, trace, hcall⟩ := ih (u.nclients - (i + 1)) (by omega) hu rfl
        exact ⟨t, ⟨s, a, u⟩ :: trace, hcall.run.cons hstep,
          List.forall_mem_cons.mpr ⟨hinside, hcall.inside⟩, hcall.returned⟩
      by_cases hready : s.clients i ∈ s.rset
      · have hreading : s.reading = some (s.clients i) := by
          simp only [State.reading, hphase]
          exact if_pos ⟨hgo.1, hgo.2, hready⟩
        have hstep : s.next (.read (outcome (s.clients i))) =
            some (s.answer (s.clients i) i nready (outcome (s.clients i))) := by
          simp only [State.next, hphase, hreading, Option.map_some]
        have hinside : s.Inside outcome (.read (outcome (s.clients i))) := by
          intro cfd hcfd
          rw [hreading] at hcfd
          cases hcfd
          rfl
        by_cases hended : (outcome (s.clients i)).Ended
        · rw [State.answer, if_pos hended] at hstep
          exact hnext hinside hstep rfl (Nat.sub_le _ _)
        · rw [State.answer, if_neg hended] at hstep
          exact hnext hinside hstep rfl le_rfl
      · have hstep : s.next .run = some { s with phase := .scanning (i + 1) nready } := by
          simp only [State.next, hphase, if_pos hgo, if_neg hready]
        exact hnext (a := .run) trivial hstep rfl le_rfl
    · have hstep : s.next .run = some { s with phase := .selecting } := by
        simp only [State.next, hphase, if_neg hgo]
      refine ⟨_, _, (System.Run.nil _).snoc hstep, ?_, rfl⟩
      exact List.forall_mem_singleton.mpr trivial

/-- Every call comes to an end. -/
theorem Entered.exists_call (h : Entered s nready) (outcome : ℕ → Reading maxMsgSize) :
    ∃ t trace, Call s t trace outcome := by
  have hnext {a : Action} {u : State} (hinside : s.Inside outcome a) (hstep : s.next a = some u)
      (hu : u.phase = .selecting ∨ ∃ i nready, u.phase = .scanning i nready) :
      ∃ t trace, Call s t trace outcome := by
    rcases hu with hu | ⟨i, nready', hu⟩
    · exact ⟨u, _, (System.Run.nil _).snoc hstep, List.forall_mem_singleton.mpr hinside, hu⟩
    · obtain ⟨t, trace, hcall⟩ := Call.of_scanning outcome hu
      exact ⟨t, ⟨s, a, u⟩ :: trace, hcall.run.cons hstep,
        List.forall_mem_cons.mpr ⟨hinside, hcall.inside⟩, hcall.returned⟩
  by_cases hlisten : s.listenfd ∈ s.rset
  · obtain ⟨n, hn⟩ : ∃ n, s.net.accept (lowest s.net.opened) = some n :=
      ⟨_, if_neg (Nat.find_spec (exists_unused s.net.opened))⟩
    have hstep : s.next (.accept (some (lowest s.net.opened))) =
        some ({ s with net := n }.connected nready (lowest s.net.opened)) := by
      simp only [State.next, h.phase, if_pos hlisten, if_true, hn, Option.map_some]
    refine hnext (a := .accept (some _)) (Option.some_ne_none _) hstep ?_
    unfold State.connected
    split
    · exact .inl rfl
    · dsimp only
      split
      · exact .inl rfl
      · exact .inr ⟨_, _, rfl⟩
  · have hstep : s.next .run = some { s with phase := .scanning 0 nready } := by
      simp only [State.next, h.phase, if_neg hlisten]
    exact hnext (a := .run) trivial hstep (.inr ⟨_, _, rfl⟩)

end SistemasOperativos.SelectServer
