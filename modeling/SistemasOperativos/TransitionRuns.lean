import Mathlib.Algebra.GroupWithZero.Nat
import Mathlib.Logic.Relation

/-!
# Labelled transition systems, their runs and forward simulation

A system has initial states and labelled steps. Reachability packages the
induction that every safety result uses: one initial goal and one step goal.
Runs keep the recorded transitions, for statements about what happens along
a whole run.
-/

namespace SistemasOperativos.TransitionRuns

variable {σ τ α β : Type*}

/-- Initial states and labelled steps. -/
structure System (σ α : Type*) where
  /-- States in which a run may start. -/
  init : σ → Prop
  /-- One step, from the first state to the last, under its label. -/
  step : σ → α → σ → Prop

/-- States reached from an initial state by finitely many steps. -/
inductive System.Reachable (S : System σ α) : σ → Prop
  | start {s : σ} : S.init s → S.Reachable s
  | next {s t : σ} {a : α} : S.Reachable s → S.step s a t → S.Reachable t

/-- One recorded step of a run. -/
structure Transition (σ α : Type*) where
  /-- State before the step. -/
  source : σ
  /-- Label under which the step was taken. -/
  label : α
  /-- State after the step. -/
  target : σ

/-- A finite run with all its transitions, oldest first. -/
inductive System.Run (S : System σ α) : σ → List (Transition σ α) → σ → Prop
  | nil (s : σ) : S.Run s [] s
  | snoc {s t u : σ} {a : α} {trace : List (Transition σ α)} :
      S.Run s trace t → S.step t a u → S.Run s (trace ++ [⟨t, a, u⟩]) u

/-- The system whose steps are the successful results of a function. -/
def ofNext (init : σ → Prop) (next : σ → α → Option σ) : System σ α where
  init := init
  step s a t := next s a = some t

/-- The same system with only the steps that a side condition allows. -/
def System.restrict (S : System σ α) (allowed : σ → α → Prop) : System σ α where
  init := S.init
  step s a t := allowed s a ∧ S.step s a t

/-- Invariant rule. The step goal may use that its source is reachable. -/
theorem System.Reachable.invariant {S : System σ α} {I : σ → Prop}
    (hinit : ∀ s, S.init s → I s)
    (hstep : ∀ s a t, S.Reachable s → I s → S.step s a t → I t)
    {s : σ} (hs : S.Reachable s) : I s := by
  induction hs with
  | start h => exact hinit _ h
  | next hr h ih => exact hstep _ _ _ hr ih h

/-- A run that starts in a reachable state ends in one. -/
theorem System.Run.reachable {S : System σ α} {s t : σ}
    {trace : List (Transition σ α)} (hrun : S.Run s trace t)
    (hs : S.Reachable s) : S.Reachable t := by
  induction hrun with
  | nil => exact hs
  | snoc _ h ih => exact ih.next h

/-- A step before a run. -/
theorem System.Run.cons {S : System σ α} {s t u : σ} {a : α} {trace : List (Transition σ α)}
    (hstep : S.step s a t) (hrun : S.Run t trace u) : S.Run s (⟨s, a, t⟩ :: trace) u := by
  induction hrun with
  | nil => exact (System.Run.nil s).snoc hstep
  | snoc _ h ih => exact ih.snoc h

/-- Every recorded transition is a step of the system between reachable states. -/
theorem System.Run.transition {S : System σ α} {s t : σ}
    {trace : List (Transition σ α)} (hrun : S.Run s trace t)
    (hs : S.Reachable s) {x : Transition σ α} (hx : x ∈ trace) :
    S.Reachable x.source ∧ S.step x.source x.label x.target := by
  induction hrun with
  | nil => cases hx
  | snoc hr h ih =>
    rcases List.mem_append.mp hx with hx | hx
    · exact ih hx
    · rw [List.mem_singleton.mp hx]
      exact ⟨hr.reachable hs, h⟩

/-- The states of a run, from first to last. -/
def visited (trace : List (Transition σ α)) (t : σ) : List σ := trace.map Transition.source ++ [t]

/-- Every state of a run that starts in a reachable state is reachable. -/
theorem System.Run.reachable_of_mem {S : System σ α} {s t v : σ}
    {trace : List (Transition σ α)} (hrun : S.Run s trace t) (hs : S.Reachable s)
    (hv : v ∈ visited trace t) : S.Reachable v := by
  rcases List.mem_append.mp hv with hv | hv
  · obtain ⟨x, hx, rfl⟩ := List.mem_map.mp hv
    exact (hrun.transition hs hx).1
  · rw [List.mem_singleton.mp hv]
    exact hrun.reachable hs

/-- A run all of whose steps are allowed is a run of the restricted system. -/
theorem System.Run.restrict {S : System σ α} {allowed : σ → α → Prop} {s t : σ}
    {trace : List (Transition σ α)} (hrun : S.Run s trace t)
    (hall : ∀ x ∈ trace, allowed x.source x.label) :
    (S.restrict allowed).Run s trace t := by
  induction hrun with
  | nil => exact .nil _
  | snoc hr h ih =>
    have hbefore := ih fun x hx => hall x (List.mem_append_left _ hx)
    have hlast := hall _ (List.mem_append_right _ (List.mem_singleton.mpr rfl))
    exact hbefore.snoc ⟨hlast, h⟩

/-- An invariant that allowed steps keep, and that makes a state good, makes all
states of a run good when all its steps are allowed. When only allowed steps end
in good states, there are no other runs through good states. -/
theorem System.Run.forall_good_iff_of_invariant {S : System σ α} {I G : σ → Prop}
    {allowed : σ → α → Prop} {s t : σ} {trace : List (Transition σ α)} (hrun : S.Run s trace t)
    (hs : I s) (hgood : ∀ s, I s → G s)
    (hkeep : ∀ s a t, I s → S.step s a t → allowed s a → I t)
    (honly : ∀ s a t, I s → S.step s a t → G t → allowed s a) :
    (∀ x ∈ trace, G x.target) ↔ ∀ x ∈ trace, allowed x.source x.label := by
  have hboth : ((∀ x ∈ trace, G x.target) → I t) ∧
      ((∀ x ∈ trace, G x.target) ↔ ∀ x ∈ trace, allowed x.source x.label) := by
    induction hrun with
    | nil => exact ⟨fun _ => hs, fun _ _ hx => (nomatch hx), fun _ _ hx => (nomatch hx)⟩
    | @snoc t u a trace hr h ih =>
      obtain ⟨hlast, hiff⟩ := ih
      simp only [List.forall_mem_append, List.forall_mem_singleton]
      refine ⟨?_, ?_, ?_⟩
      · rintro ⟨hbefore, hu⟩
        have hI := hlast hbefore
        exact hkeep t a u hI h (honly t a u hI h hu)
      · rintro ⟨hbefore, hu⟩
        exact ⟨hiff.mp hbefore, honly t a u (hlast hbefore) h hu⟩
      · rintro ⟨hbefore, ha⟩
        have hbefore' := hiff.mpr hbefore
        exact ⟨hbefore', hgood u (hkeep t a u (hlast hbefore') h ha)⟩
  exact hboth.2

/-- When a step from a good state ends in one exactly if it is allowed, a run
stays in good states exactly if all its steps are allowed. -/
theorem System.Run.forall_good_iff {S : System σ α} {I : σ → Prop} {allowed : σ → α → Prop}
    {s t : σ} {trace : List (Transition σ α)} (hrun : S.Run s trace t) (hs : I s)
    (hstep : ∀ s a t, I s → S.step s a t → (I t ↔ allowed s a)) :
    (∀ x ∈ trace, I x.target) ↔ ∀ x ∈ trace, allowed x.source x.label :=
  hrun.forall_good_iff_of_invariant hs (fun _ h => h)
    (fun s a t h hst => (hstep s a t h hst).mpr) fun s a t h hst => (hstep s a t h hst).mp

/-- A defect that only steps that are not allowed bring, and that no step mends,
shows in the last state whether such a step was taken. -/
theorem System.Run.defect_iff {S : System σ α} {I D : σ → Prop} {allowed : σ → α → Prop}
    {s t : σ} {trace : List (Transition σ α)} (hrun : S.Run s trace t) (hs : I s) (hd : ¬ D s)
    (hkeep : ∀ s a t, I s → S.step s a t → I t)
    (hstep : ∀ s a t, I s → S.step s a t → (D t ↔ D s ∨ ¬ allowed s a)) :
    ¬ D t ↔ ∀ x ∈ trace, allowed x.source x.label := by
  have hboth : I t ∧ (¬ D t ↔ ∀ x ∈ trace, allowed x.source x.label) := by
    induction hrun with
    | nil => exact ⟨hs, fun _ _ hx => (nomatch hx), fun _ => hd⟩
    | @snoc t u a trace hr h ih =>
      obtain ⟨hI, hiff⟩ := ih
      simp only [List.forall_mem_append, List.forall_mem_singleton]
      rw [hstep t a u hI h, not_or, Classical.not_not, hiff]
      exact ⟨hkeep t a u hI h, Iff.rfl⟩
  exact hboth.2

/-- A run has only allowed steps, or a first step that is not. -/
theorem System.Run.first_disallowed {S : System σ α} (allowed : σ → α → Prop) {s t : σ}
    {trace : List (Transition σ α)} (hrun : S.Run s trace t) :
    (∀ x ∈ trace, allowed x.source x.label) ∨
      ∃ before u a v after, trace = before ++ ⟨u, a, v⟩ :: after ∧ S.Run s before u ∧
        (∀ x ∈ before, allowed x.source x.label) ∧ S.step u a v ∧ ¬ allowed u a ∧
        S.Run v after t := by
  induction hrun with
  | nil => exact .inl fun _ hx => (nomatch hx)
  | @snoc t w b trace hr h ih =>
    rcases ih with hall | ⟨before, u, a, v, after, rfl, hbefore, hall, hstep, hbad, hafter⟩
    · by_cases hb : allowed t b
      · left
        simpa only [List.forall_mem_append, List.forall_mem_singleton] using ⟨hall, hb⟩
      · exact .inr ⟨trace, t, b, w, [], rfl, hr, hall, h, hb, .nil w⟩
    · refine .inr ⟨before, u, a, v, after ++ [⟨t, b, w⟩], ?_, hbefore, hall, hstep, hbad, hafter.snoc h⟩
      rw [List.append_assoc, List.cons_append]

/-- What every step keeps, a run keeps. -/
theorem System.Run.keeps {S : System σ α} {I : σ → Prop} {s t : σ} {trace : List (Transition σ α)}
    (hrun : S.Run s trace t) (hs : I s) (hkeep : ∀ s a t, I s → S.step s a t → I t) : I t := by
  induction hrun with
  | nil => exact hs
  | snoc _ h ih => exact hkeep _ _ _ ih h

/-- A run that leaves a set of states takes a step out of it. Its source satisfies
whatever every step keeps. -/
theorem System.Run.exists_leaving {S : System σ α} {I P : σ → Prop} {s t : σ}
    {trace : List (Transition σ α)} (hrun : S.Run s trace t) (hI : I s)
    (hkeep : ∀ s a t, I s → S.step s a t → I t) (hs : P s) (ht : ¬ P t) :
    ∃ x ∈ trace, I x.source ∧ S.step x.source x.label x.target ∧ P x.source ∧ ¬ P x.target := by
  induction hrun with
  | nil => exact absurd hs ht
  | @snoc t u a trace hr h ih =>
    by_cases hP : P t
    · exact ⟨_, List.mem_append_right _ (List.mem_singleton.mpr rfl), hr.keeps hI hkeep, h, hP, ht⟩
    · obtain ⟨x, hx, hstep⟩ := ih hP
      exact ⟨x, List.mem_append_left _ hx, hstep⟩

/-- Restricting further only removes reachable states. -/
theorem System.Reachable.of_restrict {S : System σ α} {allowed : σ → α → Prop}
    {s : σ} (hs : (S.restrict allowed).Reachable s) : S.Reachable s := by
  induction hs with
  | start h => exact .start h
  | next _ h ih => exact ih.next h.2

/-- A weaker side condition allows more reachable states. -/
theorem System.Reachable.mono {S : System σ α} {p q : σ → α → Prop} {s : σ}
    (hs : (S.restrict p).Reachable s) (hpq : ∀ s a, p s a → q s a) :
    (S.restrict q).Reachable s := by
  induction hs with
  | start h => exact .start h
  | next _ h ih => exact ih.next ⟨hpq _ _ h.1, h.2⟩

/-- Some number of steps, whatever their labels. -/
def System.Steps (S : System σ α) : σ → σ → Prop :=
  Relation.ReflTransGen fun s t => ∃ a, S.step s a t

/-- Any number of steps is a run. -/
theorem System.Steps.exists_run {S : System σ α} {s t : σ} (hst : S.Steps s t) :
    ∃ trace, S.Run s trace t := by
  induction hst with
  | refl => exact ⟨[], .nil s⟩
  | tail _ h ih =>
    obtain ⟨trace, hrun⟩ := ih
    obtain ⟨a, hstep⟩ := h
    exact ⟨_, hrun.snoc hstep⟩

/-- Reachability is closed under any number of steps. -/
theorem System.Reachable.steps {S : System σ α} {s t : σ}
    (hs : S.Reachable s) (hst : S.Steps s t) : S.Reachable t := by
  induction hst with
  | refl => exact hs
  | tail _ h ih =>
    obtain ⟨a, ha⟩ := h
    exact ih.next ha

/-- Progress rule. When every reachable state that is not done has a step to one of
smaller measure, every reachable state leads to one that is. -/
theorem System.Reachable.eventually {S : System σ α} {D : σ → Prop} (m : σ → Nat)
    (hprogress : ∀ s, S.Reachable s → ¬ D s → ∃ a t, S.step s a t ∧ m t < m s)
    {s : σ} (hs : S.Reachable s) : ∃ t, S.Steps s t ∧ D t := by
  induction hm : m s using Nat.strongRecOn generalizing s with
  | ind n ih =>
    by_cases hdone : D s
    · exact ⟨s, .refl, hdone⟩
    · obtain ⟨a, u, hstep, hless⟩ := hprogress s hs hdone
      obtain ⟨t, hsteps, ht⟩ := ih _ (hm ▸ hless) (hs.next hstep) rfl
      exact ⟨t, .head ⟨a, hstep⟩ hsteps, ht⟩

/-- Termination rule with interruptions. When every step makes a measure smaller, up to what
its label gives back, the measure and what was given back bound the length of a run. -/
theorem System.Run.length_le_gain {S : System σ α} (m : σ → Nat) (gain : α → Nat)
    (hdecreases : ∀ s a t, S.Reachable s → S.step s a t → m t < m s + gain a) {s t : σ}
    {trace : List (Transition σ α)} (hrun : S.Run s trace t) (hs : S.Reachable s) :
    trace.length + m t ≤ m s + (trace.map fun x => gain x.label).sum := by
  induction hrun with
  | nil => simp
  | snoc hbefore hstep ih =>
    have hless := hdecreases _ _ _ (hbefore.reachable hs) hstep
    rw [List.length_append, List.length_singleton, List.map_append, List.sum_append,
      List.map_singleton, List.sum_singleton]
    dsimp only
    omega

/-- Termination rule. When every step makes a measure smaller, the measure of a state
bounds the length of every run from it. -/
theorem System.Run.length_le {S : System σ α} (m : σ → Nat)
    (hdecreases : ∀ s a t, S.Reachable s → S.step s a t → m t < m s) {s t : σ}
    {trace : List (Transition σ α)} (hrun : S.Run s trace t) (hs : S.Reachable s) :
    trace.length + m t ≤ m s := by
  have hbound := hrun.length_le_gain m (fun _ => 0) hdecreases hs
  simpa [List.map_const'] using hbound

/-- The steps under a list of labels end in a reachable state. -/
theorem System.Reachable.foldlM {init : σ → Prop} {next : σ → α → Option σ} {labels : List α} :
    ∀ {s t : σ}, (ofNext init next).Reachable s → labels.foldlM next s = some t →
      (ofNext init next).Reachable t := by
  induction labels with
  | nil =>
    intro s t hs ht
    cases ht
    exact hs
  | cons a labels ih =>
    intro s t hs ht
    rw [List.foldlM_cons] at ht
    obtain ⟨u, hu, ht⟩ := Option.bind_eq_some_iff.mp ht
    exact ih (hs.next hu) ht

/-- A test that succeeds after the steps under a list of labels finds a reachable state. -/
theorem System.Reachable.exists_of_any {init : σ → Prop} {next : σ → α → Option σ}
    {s : σ} (hs : (ofNext init next).Reachable s) (labels : List α) {p : σ → Bool}
    (h : (labels.foldlM next s).any p = true) :
    ∃ t, (ofNext init next).Reachable t ∧ p t = true := by
  obtain ⟨t, ht, hp⟩ := (Option.any_eq_true _ _).mp h
  exact ⟨t, hs.foldlM ht, hp⟩

/-- A test that succeeds after allowed steps under a list of labels finds a run of
allowed steps. -/
theorem System.Run.exists_of_any {init : σ → Prop} {next : σ → α → Option σ}
    {allowed : σ → α → Prop} [∀ s a, Decidable (allowed s a)] {p : σ → Bool} (labels : List α) :
    ∀ {s : σ}, (labels.foldlM (fun s a => if allowed s a then next s a else none) s).any p = true →
      ∃ trace t, (ofNext init next).Run s trace t ∧
        (∀ x ∈ trace, allowed x.source x.label) ∧ p t = true := by
  induction labels with
  | nil => exact fun {s} h => ⟨[], s, .nil s, fun _ hx => (nomatch hx), h⟩
  | cons a labels ih =>
    intro s h
    obtain ⟨t, ht, hp⟩ := (Option.any_eq_true _ _).mp h
    rw [List.foldlM_cons] at ht
    obtain ⟨u, hu, ht⟩ := Option.bind_eq_some_iff.mp ht
    obtain ⟨hallowed, hnext⟩ := Option.ite_none_right_eq_some.mp hu
    obtain ⟨trace, t', hrun, hall, hp'⟩ := ih (s := u) ((Option.any_eq_true _ _).mpr ⟨t, ht, hp⟩)
    refine ⟨⟨s, a, u⟩ :: trace, t', hrun.cons hnext, ?_, hp'⟩
    exact List.forall_mem_cons.mpr ⟨hallowed, hall⟩

/-- Forward simulation. One step below is matched by any number of steps
above, and the step goal may use that its source is reachable. -/
structure Simulation (S : System σ α) (T : System τ β) (R : σ → τ → Prop) : Prop where
  /-- Every initial state below has an initial state above. -/
  init : ∀ s, S.init s → ∃ t, T.init t ∧ R s t
  /-- Every step below is matched above. -/
  step : ∀ s a s' t, S.Reachable s → R s t → S.step s a s' → ∃ t', T.Steps t t' ∧ R s' t'

/-- Every reachable state below is related to a reachable state above. -/
theorem Simulation.reachable {S : System σ α} {T : System τ β} {R : σ → τ → Prop}
    (h : Simulation S T R) {s : σ} (hs : S.Reachable s) : ∃ t, T.Reachable t ∧ R s t := by
  induction hs with
  | start hi =>
    obtain ⟨t, ht, hr⟩ := h.init _ hi
    exact ⟨t, .start ht, hr⟩
  | next hs hstep ih =>
    obtain ⟨t, ht, hr⟩ := ih
    obtain ⟨t', htt, hr'⟩ := h.step _ _ _ _ hs hr hstep
    exact ⟨t', ht.steps htt, hr'⟩

/-- Lockstep simulation. A step below is one step above under the same label. -/
structure Lockstep (S : System σ α) (T : System τ α) (R : σ → τ → Prop) : Prop where
  /-- Every initial state below has an initial state above. -/
  init : ∀ s, S.init s → ∃ t, T.init t ∧ R s t
  /-- Every step below is matched by one step above. -/
  step : ∀ s t a s', S.Reachable s → T.Reachable t → R s t → S.step s a s' →
    ∃ t', T.step t a t' ∧ R s' t'

/-- A whole run below is matched by a run above with the same labels. -/
theorem Lockstep.run {S : System σ α} {T : System τ α} {R : σ → τ → Prop}
    (h : Lockstep S T R) {s s' : σ} {t : τ} {trace : List (Transition σ α)}
    (hrun : S.Run s trace s') (hs : S.Reachable s) (ht : T.Reachable t) (hr : R s t) :
    ∃ trace' t', T.Run t trace' t' ∧
      trace'.map Transition.label = trace.map Transition.label ∧ R s' t' := by
  induction hrun with
  | nil => exact ⟨[], t, .nil t, rfl, hr⟩
  | @snoc s₁ s₂ a trace hbefore hstep ih =>
    obtain ⟨trace', t₁, hrun', hlabels, hr'⟩ := ih
    obtain ⟨t₂, hstep', hlast⟩ := h.step _ _ _ _ (hbefore.reachable hs) (hrun'.reachable ht) hr' hstep
    refine ⟨_, t₂, hrun'.snoc hstep', ?_, hlast⟩
    rw [List.map_append, List.map_append, hlabels]
    rfl

/-- A map of states that commutes with the steps, from a system onto another one. -/
structure StepMap (init : σ → Prop) (next : σ → α → Option σ) (init' : τ → Prop)
    (next' : τ → α → Option τ) (f : σ → τ) : Prop where
  /-- The initial states are the images of initial states. -/
  init : ∀ t, init' t ↔ ∃ s, init s ∧ f s = t
  /-- A step from an image is the image of a step. -/
  next : ∀ s a, next' (f s) a = (next s a).map f

section StepMap

variable {init : σ → Prop} {next : σ → α → Option σ} {init' : τ → Prop}
  {next' : τ → α → Option τ} {f : σ → τ}

/-- The image of a step is a step. -/
theorem StepMap.step (h : StepMap init next init' next' f) {s s' : σ} {a : α}
    (hstep : (ofNext init next).step s a s') : (ofNext init' next').step (f s) a (f s') := by
  have hnext : next s a = some s' := hstep
  show next' (f s) a = some (f s')
  rw [h.next, hnext, Option.map_some]

/-- The reachable states are the images of reachable states. -/
theorem StepMap.reachable_iff (h : StepMap init next init' next' f) {t : τ} :
    (ofNext init' next').Reachable t ↔ ∃ s, (ofNext init next).Reachable s ∧ f s = t := by
  constructor
  · intro ht
    induction ht with
    | start hinit =>
      obtain ⟨s, hs, rfl⟩ := (h.init _).mp hinit
      exact ⟨s, .start hs, rfl⟩
    | next _ hstep ih =>
      obtain ⟨s, hs, rfl⟩ := ih
      obtain ⟨s', hnext, rfl⟩ := Option.map_eq_some_iff.mp ((h.next s _).symm.trans hstep)
      exact ⟨s', hs.next hnext, rfl⟩
  · rintro ⟨s, hs, rfl⟩
    induction hs with
    | start hinit => exact .start ((h.init _).mpr ⟨_, hinit, rfl⟩)
    | next _ hstep ih => exact ih.next (h.step hstep)

/-- The image of any number of steps. -/
theorem StepMap.steps (h : StepMap init next init' next' f) {s s' : σ}
    (hsteps : (ofNext init next).Steps s s') : (ofNext init' next').Steps (f s) (f s') := by
  induction hsteps with
  | refl => exact .refl
  | tail _ hstep ih =>
    obtain ⟨a, ha⟩ := hstep
    exact ih.tail ⟨a, h.step ha⟩

end StepMap

end SistemasOperativos.TransitionRuns
