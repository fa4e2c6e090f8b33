import SistemasOperativos.Census
import SistemasOperativos.ConditionMonitor
import SistemasOperativos.TransitionRuns

/-!
# The latch with an atomic counter

A signaller counts the latch down without its mutex, and only the one that
reaches zero takes the mutex, to wake the waiters. A waiter reads the counter
with the mutex in its hands, and the counter may change between the read and
`pthread_cond_wait`.
-/

namespace SistemasOperativos.FastLatch

open TransitionRuns ConditionMonitor Census

variable {ω ι : Type*}

/-- The condition that the waiters sleep on. -/
inductive Cond
  | done
  deriving DecidableEq, Repr

/-- Who uses a latch. -/
inductive Party (ω ι : Type*)
  | waiter (w : ω)
  | signaller (i : ι)
  deriving DecidableEq, Repr

/-- Where a waiter stands in `cdl_wait_for_all`, by its next statement. -/
inductive WaiterPc
  /-- `pthread_mutex_lock`. -/
  | locking
  /-- `atomic_load`. -/
  | loading
  /-- The call of `pthread_cond_wait`. -/
  | sleeping
  /-- Inside `pthread_cond_wait`. -/
  | waiting
  /-- `pthread_mutex_unlock`. -/
  | unlocking
  | after
  deriving DecidableEq, Repr

/-- Where a signaller stands in `cdl_signal_one`, by its next statement. -/
inductive SignallerPc
  /-- `atomic_fetch_sub`. -/
  | subtracting
  /-- `pthread_mutex_lock`. -/
  | locking
  /-- `pthread_cond_broadcast`. -/
  | broadcasting
  /-- `pthread_mutex_unlock`. -/
  | unlocking
  | finished
  deriving DecidableEq, Repr

/-- A latch and its users. -/
structure State (ω ι : Type*) where
  counter : ℤ
  monitor : Monitor (Party ω ι) Cond
  waiter : ω → WaiterPc
  signaller : ι → SignallerPc

/-- A step of the latch. -/
inductive Action (ω ι : Type*)
  /-- A party executes its next statement. -/
  | run (p : Party ω ι)
  /-- A waiter wakes for no reason. -/
  | wake (w : ω)
  deriving DecidableEq, Repr

variable [DecidableEq ω] [DecidableEq ι]

/-- A waiter moves on. -/
def State.moveWaiter (s : State ω ι) (w : ω) (q : WaiterPc) : State ω ι :=
  { s with waiter := Function.update s.waiter w q }

/-- A signaller moves on. -/
def State.moveSignaller (s : State ω ι) (i : ι) (q : SignallerPc) : State ω ι :=
  { s with signaller := Function.update s.signaller i q }

/-- One statement of `cdl_wait_for_all`. -/
def State.runWaiter (s : State ω ι) (w : ω) : Option (State ω ι) :=
  match s.waiter w with
  | .locking =>
    (s.monitor.lock (.waiter w)).map fun m => { s with monitor := m }.moveWaiter w .loading
  | .loading => some (s.moveWaiter w (if s.counter > 0 then .sleeping else .unlocking))
  | .sleeping =>
    (s.monitor.wait .done (.waiter w)).map fun m => { s with monitor := m }.moveWaiter w .waiting
  | .waiting =>
    (s.monitor.relock .done (.waiter w)).map fun m => { s with monitor := m }.moveWaiter w .loading
  | .unlocking =>
    (s.monitor.unlock (.waiter w)).map fun m => { s with monitor := m }.moveWaiter w .after
  | .after => none

/-- One statement of `cdl_signal_one`. `atomic_fetch_sub` returns the value before. -/
def State.runSignaller (s : State ω ι) (i : ι) : Option (State ω ι) :=
  match s.signaller i with
  | .subtracting =>
    some ({ s with counter := s.counter - 1 }.moveSignaller i
      (if s.counter > 1 then .finished else .locking))
  | .locking =>
    (s.monitor.lock (.signaller i)).map fun m =>
      { s with monitor := m }.moveSignaller i .broadcasting
  | .broadcasting =>
    some ({ s with monitor := s.monitor.broadcast .done }.moveSignaller i .unlocking)
  | .unlocking =>
    (s.monitor.unlock (.signaller i)).map fun m => { s with monitor := m }.moveSignaller i .finished
  | .finished => none

/-- One step. -/
def State.next (s : State ω ι) : Action ω ι → Option (State ω ι)
  | .run (.waiter w) => s.runWaiter w
  | .run (.signaller i) => s.runSignaller i
  | .wake w =>
    match s.waiter w with
    | .waiting => (s.monitor.wake .done (.waiter w)).map fun m => { s with monitor := m }
    | _ => none

/-- After `cdl_init` the latch counts its signallers. -/
def cdlInit (ω ι : Type*) [Fintype ι] : State ω ι :=
  ⟨Fintype.card ι, .new, fun _ => .locking, fun _ => .subtracting⟩

/-- All runs of a latch. -/
def latch (ω ι : Type*) [DecidableEq ω] [DecidableEq ι] [Fintype ι] :
    System (State ω ι) (Action ω ι) :=
  ofNext (fun s => s = cdlInit ω ι) State.next

/-- Inside a critical section of the latch. -/
def State.Inside (s : State ω ι) : Party ω ι → Prop
  | .waiter w => s.waiter w = .loading ∨ s.waiter w = .sleeping ∨ s.waiter w = .unlocking
  | .signaller i => s.signaller i = .broadcasting ∨ s.signaller i = .unlocking

/-- On the way of the last signaller, which uses the mutex. -/
def SignallerPc.Slow : SignallerPc → Prop
  | .locking | .broadcasting | .unlocking => True
  | .subtracting | .finished => False

/-- A waiter that read zero. -/
def WaiterPc.Passed : WaiterPc → Prop
  | .unlocking | .after => True
  | .locking | .loading | .sleeping | .waiting => False

/-- What holds of a latch in every run. -/
structure Inv (s : State ω ι) : Prop where
  /-- The mutex is held exactly by the party inside. -/
  held : s.monitor.HeldBy s.Inside
  /-- The counter counts the signallers that have not counted it down. -/
  counted : ∃ n : ℕ, Standing s.signaller (fun q => q = .subtracting) n ∧ (n : ℤ) = s.counter
  /-- Only who waits is asleep. -/
  asleep : ∀ w, .waiter w ∈ s.monitor.asleep .done → s.waiter w = .waiting
  /-- Only the signaller that reached zero uses the mutex. -/
  last : ∀ i, (s.signaller i).Slow → s.counter = 0 ∧ ∀ j, (s.signaller j).Slow → j = i
  /-- At zero, a waiter about to sleep has the mutex for which the last signaller waits. -/
  entering : s.counter = 0 → ∀ w, s.waiter w = .sleeping → ∃ i, s.signaller i = .locking
  /-- At zero, somebody is about to wake who sleeps. -/
  woken : s.counter = 0 → ∀ w, .waiter w ∈ s.monitor.asleep .done →
    ∃ i, s.signaller i = .locking ∨ s.signaller i = .broadcasting
  /-- Nobody passes before the count is zero. -/
  passed : ∀ w, (s.waiter w).Passed → s.counter = 0

variable {s t : State ω ι} {i : ι} {w : ω}

omit [DecidableEq ι] in
/-- A step of a waiter leaves the others where they are. -/
theorem inside_waiter {q : WaiterPc} (hmoved : t.waiter = Function.update s.waiter w q)
    (hsame : t.signaller = s.signaller) :
    ∀ r, r ≠ .waiter w → (t.Inside r ↔ s.Inside r) := by
  intro r hr
  cases r with
  | waiter v =>
    have hv : v ≠ w := fun he => hr (he ▸ rfl)
    simp only [State.Inside, hmoved, Function.update_of_ne hv]
  | signaller i => simp only [State.Inside, hsame]

omit [DecidableEq ω] in
/-- A step of a signaller leaves the others where they are. -/
theorem inside_signaller {q : SignallerPc} (hsame : t.waiter = s.waiter)
    (hmoved : t.signaller = Function.update s.signaller i q) :
    ∀ r, r ≠ .signaller i → (t.Inside r ↔ s.Inside r) := by
  intro r hr
  cases r with
  | waiter w => simp only [State.Inside, hsame]
  | signaller j =>
    have hj : j ≠ i := fun he => hr (he ▸ rfl)
    simp only [State.Inside, hmoved, Function.update_of_ne hj]

section Signallers

omit [DecidableEq ω] in
/-- The last signaller moves on with its mutex. -/
theorem Inv.slow (h : Inv s) {q : SignallerPc} {m : Monitor (Party ω ι) Cond}
    (hslow : (s.signaller i).Slow) (hq : q ≠ .subtracting)
    (hheld : m.HeldBy ({ s with monitor := m }.moveSignaller i q).Inside)
    (hasleep : ∀ w, .waiter w ∈ m.asleep .done → .waiter w ∈ s.monitor.asleep .done)
    (hentering : ∀ w, s.waiter w = .sleeping → q = .locking)
    (hwoken : ∀ w, .waiter w ∈ m.asleep .done → q = .locking ∨ q = .broadcasting) :
    Inv ({ s with monitor := m }.moveSignaller i q) where
  held := hheld
  counted := by
    obtain ⟨n, hn, hcounter⟩ := h.counted
    have hnot : s.signaller i ≠ .subtracting := fun he => by
      rw [he] at hslow
      exact hslow
    exact ⟨n, hn.stay (by simp only [hq, hnot]), hcounter⟩
  asleep w hw := h.asleep w (hasleep w hw)
  last j hj := by
    obtain ⟨hzero, hunique⟩ := h.last i hslow
    refine ⟨hzero, fun r hr => ?_⟩
    have hme : ∀ r, (Function.update s.signaller i q r).Slow → r = i := fun r hr => by
      by_contra hne
      rw [Function.update_of_ne hne] at hr
      exact hne (hunique r hr)
    rw [hme r hr, hme j hj]
  entering _ w hw := ⟨i, by rw [← hentering w hw]; exact Function.update_self _ _ _⟩
  woken _ w hw := by
    have hself : ({ s with monitor := m }.moveSignaller i q).signaller i = q :=
      Function.update_self _ _ _
    exact ⟨i, by rw [hself]; exact hwoken w hw⟩
  passed w hw := h.passed w hw

omit [DecidableEq ω] in
/-- A signaller counts the latch down. -/
theorem Inv.subtract (h : Inv s) (hpc : s.signaller i = .subtracting) :
    Inv ({ s with counter := s.counter - 1 }.moveSignaller i
      (if s.counter > 1 then .finished else .locking)) := by
  obtain ⟨n, hn, hcounter⟩ := h.counted
  have hpos := hn.pos hpc
  have hnone : ∀ j, ¬ (s.signaller j).Slow := fun j hj => by
    have hzero := (h.last j hj).1
    omega
  have hleft : ∃ n : ℕ, Standing (Function.update s.signaller i
      (if s.counter > 1 then .finished else .locking)) (fun q => q = .subtracting) n ∧
      (n : ℤ) = s.counter - 1 :=
    ⟨n - 1, hn.leave hpc (by split <;> simp), by omega⟩
  refine ⟨?_, hleft, h.asleep, fun j hj => ?_, fun hzero w hw => ?_, fun hzero w hw => ?_,
    fun w hw => ?_⟩
  · refine h.held.keep (p := .signaller i) rfl ?_ (inside_signaller rfl rfl)
    simp only [State.Inside, State.moveSignaller, Function.update_self, hpc]
    split <;> simp
  · -- only this signaller can be the last one
    have hme : ∀ r, (Function.update s.signaller i
        (if s.counter > 1 then SignallerPc.finished else .locking) r).Slow →
        r = i ∧ ¬ s.counter > 1 := fun r hr => by
      by_cases hri : r = i
      · refine ⟨hri, fun hmore => ?_⟩
        rw [hri, Function.update_self, if_pos hmore] at hr
        exact hr
      · rw [Function.update_of_ne hri] at hr
        exact absurd hr (hnone r)
    obtain ⟨rfl, hone⟩ := hme j hj
    refine ⟨?_, fun r hr => (hme r hr).1⟩
    show s.counter - 1 = 0
    omega
  · have hone : ¬ s.counter > 1 := by
      change s.counter - 1 = 0 at hzero
      omega
    exact ⟨i, by rw [if_neg hone]; exact Function.update_self _ _ _⟩
  · have hone : ¬ s.counter > 1 := by
      change s.counter - 1 = 0 at hzero
      omega
    exact ⟨i, .inl (by rw [if_neg hone]; exact Function.update_self _ _ _)⟩
  · have hzero := h.passed w hw
    omega

/-- Every statement of a signaller keeps the invariant. -/
theorem Inv.runSignaller (h : Inv s) (hrun : s.runSignaller i = some t) : Inv t := by
  unfold State.runSignaller at hrun
  cases hpc : s.signaller i with
  | subtracting =>
    simp only [hpc, Option.some.injEq] at hrun
    subst hrun
    exact h.subtract hpc
  | locking =>
    simp only [hpc] at hrun
    obtain ⟨m, hm, rfl⟩ := Option.map_eq_some_iff.mp hrun
    obtain ⟨hfree, rfl⟩ := Monitor.lock_spec hm
    refine h.slow (by rw [hpc]; trivial) SignallerPc.noConfusion ?_ (fun _ hw => hw)
      (fun w hw => ?_) fun _ _ => .inr rfl
    · refine h.held.enter hfree rfl ?_ (inside_signaller rfl rfl)
      exact .inl (Function.update_self _ _ _)
    · -- a waiter about to sleep would have the mutex
      have hheld := (h.held (.waiter w)).mp (.inr (.inl hw))
      rw [hfree] at hheld
      cases hheld
  | broadcasting =>
    simp only [hpc, Option.some.injEq] at hrun
    subst hrun
    have hnone : ∀ w, .waiter w ∉ (s.monitor.broadcast .done).asleep .done := by
      intro w
      show .waiter w ∉ Function.update s.monitor.asleep .done ∅ .done
      rw [Function.update_self]
      exact Finset.notMem_empty _
    have hinside : s.Inside (.signaller i) := .inl hpc
    refine h.slow (by rw [hpc]; trivial) SignallerPc.noConfusion ?_
      (fun w hw => absurd hw (hnone w)) (fun w hw => ?_) fun w hw => absurd hw (hnone w)
    · refine h.held.keep (p := .signaller i) rfl ?_ (inside_signaller rfl rfl)
      simp [State.Inside, State.moveSignaller, hpc]
    · have hboth := h.held.unique hinside (q := .waiter w) (.inr (.inl hw))
      cases hboth
  | unlocking =>
    simp only [hpc] at hrun
    obtain ⟨m, hm, rfl⟩ := Option.map_eq_some_iff.mp hrun
    obtain ⟨hheld, rfl⟩ := Monitor.unlock_spec hm
    have hslow : (s.signaller i).Slow := by rw [hpc]; trivial
    obtain ⟨hzero, hunique⟩ := h.last i hslow
    -- nobody else is on the way of the last signaller
    have hnobody : ∀ j, s.signaller j ≠ .locking ∧ s.signaller j ≠ .broadcasting := fun j => by
      constructor
      all_goals
        intro hj
        have hji := hunique j (by rw [hj]; trivial)
        rw [hji, hpc] at hj
        cases hj
    refine h.slow hslow SignallerPc.noConfusion ?_ (fun _ hw => hw) (fun w hw => ?_) fun w hw => ?_
    · refine h.held.leave hheld rfl ?_ (inside_signaller rfl rfl)
      simp [State.Inside, State.moveSignaller]
    · obtain ⟨j, hj⟩ := h.entering hzero w hw
      exact absurd hj (hnobody j).1
    · obtain ⟨j, hj | hj⟩ := h.woken hzero w hw
      · exact absurd hj (hnobody j).1
      · exact absurd hj (hnobody j).2
  | finished =>
    simp only [hpc] at hrun
    cases hrun

end Signallers

section Waiters

omit [DecidableEq ι] in
/-- A waiter moves on. -/
theorem Inv.await (h : Inv s) {q : WaiterPc} {m : Monitor (Party ω ι) Cond}
    (hheld : m.HeldBy ({ s with monitor := m }.moveWaiter w q).Inside)
    (hothers : ∀ v, v ≠ w → .waiter v ∈ m.asleep .done → .waiter v ∈ s.monitor.asleep .done)
    (hasleep : .waiter w ∈ m.asleep .done → q = .waiting ∧
      (s.counter = 0 → ∃ i, s.signaller i = .locking ∨ s.signaller i = .broadcasting))
    (hentering : q = .sleeping → s.counter ≠ 0) (hpassed : q.Passed → s.counter = 0) :
    Inv ({ s with monitor := m }.moveWaiter w q) := by
  have hself : ({ s with monitor := m }.moveWaiter w q).waiter w = q := Function.update_self _ _ _
  have hother : ∀ v, v ≠ w → ({ s with monitor := m }.moveWaiter w q).waiter v = s.waiter v :=
    fun v hv => Function.update_of_ne hv _ _
  refine ⟨hheld, h.counted, fun v hv => ?_, h.last, fun hzero v hv => ?_, fun hzero v hv => ?_,
    fun v hv => ?_⟩
  · rcases eq_or_ne v w with rfl | hne
    · exact hself.trans (hasleep hv).1
    · exact (hother v hne).trans (h.asleep v (hothers v hne hv))
  · rcases eq_or_ne v w with rfl | hne
    · exact absurd hzero (hentering (hself.symm.trans hv))
    · exact h.entering hzero v ((hother v hne).symm.trans hv)
  · rcases eq_or_ne v w with rfl | hne
    · exact (hasleep hv).2 hzero
    · exact h.woken hzero v (hothers v hne hv)
  · rcases eq_or_ne v w with rfl | hne
    · rw [hself] at hv
      exact hpassed hv
    · rw [hother v hne] at hv
      exact h.passed v hv

omit [DecidableEq ω] [DecidableEq ι] in
/-- Who does not wait is awake. -/
theorem Inv.awake (h : Inv s) (hpc : s.waiter w ≠ .waiting) : .waiter w ∉ s.monitor.asleep .done :=
  fun hin => hpc (h.asleep w hin)

omit [DecidableEq ω] [DecidableEq ι] in
/-- The counter is never negative. -/
theorem Inv.counter_nonneg (h : Inv s) : 0 ≤ s.counter := by
  obtain ⟨n, -, hcounter⟩ := h.counted
  omega

/-- Every statement of a waiter keeps the invariant. -/
theorem Inv.runWaiter (h : Inv s) (hrun : s.runWaiter w = some t) : Inv t := by
  unfold State.runWaiter at hrun
  cases hpc : s.waiter w with
  | locking =>
    have hout := h.awake (by rw [hpc]; exact WaiterPc.noConfusion)
    simp only [hpc] at hrun
    obtain ⟨m, hm, rfl⟩ := Option.map_eq_some_iff.mp hrun
    obtain ⟨hfree, rfl⟩ := Monitor.lock_spec hm
    refine h.await ?_ (fun _ _ hv => hv) (fun hin => absurd hin hout)
      WaiterPc.noConfusion False.elim
    exact h.held.enter hfree rfl (.inl (Function.update_self _ _ _)) (inside_waiter rfl rfl)
  | loading =>
    have hout := h.awake (by rw [hpc]; exact WaiterPc.noConfusion)
    simp only [hpc, Option.some.injEq] at hrun
    subst hrun
    refine h.await ?_ (fun _ _ hv => hv) (fun hin => absurd hin hout) (fun hsleeps => ?_)
      fun hpasses => ?_
    · refine h.held.keep (p := .waiter w) rfl ?_ (inside_waiter rfl rfl)
      simp only [State.Inside, State.moveWaiter, Function.update_self, hpc]
      split <;> simp
    · split at hsleeps
      next hpos => omega
      next => cases hsleeps
    · have hnonneg := h.counter_nonneg
      split at hpasses
      next => exact hpasses.elim
      next hopen => omega
  | sleeping =>
    simp only [hpc] at hrun
    obtain ⟨m, hm, rfl⟩ := Option.map_eq_some_iff.mp hrun
    obtain ⟨hheld, rfl⟩ := Monitor.wait_spec hm
    refine h.await ?_ (fun v hv hin => ?_) (fun _ => ⟨rfl, fun hzero => ?_⟩)
      WaiterPc.noConfusion False.elim
    · refine h.held.leave hheld rfl ?_ (inside_waiter rfl rfl)
      simp [State.Inside, State.moveWaiter]
    · simpa [hv] using hin
    · obtain ⟨i, hi⟩ := h.entering hzero w hpc
      exact ⟨i, .inl hi⟩
  | waiting =>
    simp only [hpc] at hrun
    obtain ⟨m, hm, rfl⟩ := Option.map_eq_some_iff.mp hrun
    obtain ⟨hout, hfree, rfl⟩ := Monitor.relock_spec hm
    refine h.await ?_ (fun _ _ hv => hv) (fun hin => absurd hin hout)
      WaiterPc.noConfusion False.elim
    exact h.held.enter hfree rfl (.inl (Function.update_self _ _ _)) (inside_waiter rfl rfl)
  | unlocking =>
    have hout := h.awake (by rw [hpc]; exact WaiterPc.noConfusion)
    simp only [hpc] at hrun
    obtain ⟨m, hm, rfl⟩ := Option.map_eq_some_iff.mp hrun
    obtain ⟨hheld, rfl⟩ := Monitor.unlock_spec hm
    refine h.await ?_ (fun _ _ hv => hv) (fun hin => absurd hin hout) WaiterPc.noConfusion
      fun _ => h.passed w (by rw [hpc]; trivial)
    refine h.held.leave hheld rfl ?_ (inside_waiter rfl rfl)
    simp [State.Inside, State.moveWaiter]
  | after =>
    simp only [hpc] at hrun
    cases hrun

/-- A waiter wakes for no reason. -/
theorem Inv.wake (h : Inv s) {m : Monitor (Party ω ι) Cond}
    (hm : s.monitor.wake .done (.waiter w) = some m) : Inv { s with monitor := m } := by
  have hholder := Monitor.signal_holder hm
  have hsubset : ∀ p, p ∈ m.asleep .done → p ∈ s.monitor.asleep .done := by
    intro p hp
    simp only [Monitor.wake, Monitor.signal, Option.ite_none_right_eq_some,
      Option.some.injEq] at hm
    obtain ⟨-, rfl⟩ := hm
    change p ∈ Function.update s.monitor.asleep .done _ .done at hp
    rw [Function.update_self] at hp
    exact Finset.mem_of_mem_erase hp
  exact { h with
    held := h.held.keep (p := .waiter w) hholder Iff.rfl fun _ _ => Iff.rfl
    asleep := fun v hv => h.asleep v (hsubset _ hv)
    woken := fun hzero v hv => h.woken hzero v (hsubset _ hv) }

end Waiters

/-- A step of the latch keeps the invariant. -/
theorem Inv.next (h : Inv s) {a : Action ω ι} (hnext : s.next a = some t) : Inv t := by
  match a with
  | .run (.waiter w) => exact h.runWaiter hnext
  | .run (.signaller i) => exact h.runSignaller hnext
  | .wake w =>
    simp only [State.next] at hnext
    split at hnext
    · obtain ⟨m, hm, rfl⟩ := Option.map_eq_some_iff.mp hnext
      exact h.wake hm
    · cases hnext

variable [Fintype ι]

/-- Every reachable latch satisfies the invariant. -/
theorem inv_reachable (hs : (latch ω ι).Reachable s) : Inv s := by
  refine System.Reachable.invariant (I := Inv) ?_ (fun _ _ _ _ hI hstep => hI.next hstep) hs
  rintro s rfl
  refine ⟨fun p => ?_, ?_, fun w hw => absurd hw (Finset.notMem_empty _), fun i hi => hi.elim,
    fun _ w hw => WaiterPc.noConfusion hw, fun _ w hw => absurd hw (Finset.notMem_empty _),
    fun w hw => hw.elim⟩
  · cases p <;> simp [State.Inside, cdlInit, Monitor.new]
  · exact ⟨Fintype.card ι, ⟨Finset.univ, fun i => ⟨fun _ => rfl, fun _ => Finset.mem_univ i⟩, rfl⟩,
      rfl⟩

end SistemasOperativos.FastLatch
