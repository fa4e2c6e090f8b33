import SistemasOperativos.Census
import SistemasOperativos.ConditionMonitor
import SistemasOperativos.TransitionRuns

/-!
# A latch that counts signallers down

Each signaller counts the latch down once, under its mutex, and the one that
reaches zero wakes the waiters before it gives the mutex up. A waiter sleeps
while the count is positive. When a waiter has passed the latch, every signaller
is through with it, so that the latch may be taken down.
-/

namespace SistemasOperativos.CountdownLatch

open TransitionRuns ConditionMonitor Census

variable {ω ι : Type*}

/-- The condition that the waiters sleep on. -/
inductive Cond
  | done
  deriving DecidableEq, Repr

/-- Who uses a latch. -/
inductive Party (ω ι : Type*)
  | waiter (w : ω)
  | signaller (i : ι)
  deriving DecidableEq, Repr

/-- Where a waiter stands, by its next statement. -/
inductive WaiterPc
  | before
  | locking
  | checking
  | waiting
  | unlocking
  | after
  deriving DecidableEq, Repr

/-- Where a signaller stands, by its next statement. -/
inductive SignallerPc
  | before
  | locking
  | decrementing
  | broadcasting
  | unlocking
  | finished
  deriving DecidableEq, Repr

/-- A latch and its users. -/
structure State (ω ι : Type*) where
  counter : ℤ
  monitor : Monitor (Party ω ι) Cond
  waiter : ω → WaiterPc
  signaller : ι → SignallerPc

/-- A step of the latch. -/
inductive Action (ω ι : Type*)
  /-- A party executes its next statement. -/
  | run (p : Party ω ι)
  /-- A waiter wakes for no reason. -/
  | wake (w : ω)
  deriving DecidableEq, Repr

variable [DecidableEq ω] [DecidableEq ι]

/-- A waiter moves on. -/
def State.moveWaiter (s : State ω ι) (w : ω) (q : WaiterPc) : State ω ι :=
  { s with waiter := Function.update s.waiter w q }

/-- A signaller moves on. -/
def State.goto (s : State ω ι) (i : ι) (q : SignallerPc) : State ω ι :=
  { s with signaller := Function.update s.signaller i q }

/-- One statement of a waiter. -/
def State.runWaiter (s : State ω ι) (w : ω) : Option (State ω ι) :=
  match s.waiter w with
  | .before => some (s.moveWaiter w .locking)
  | .locking =>
    (s.monitor.lock (.waiter w)).map fun m => { s with monitor := m }.moveWaiter w .checking
  | .checking =>
    if s.counter > 0 then
      (s.monitor.wait .done (.waiter w)).map fun m => { s with monitor := m }.moveWaiter w .waiting
    else some (s.moveWaiter w .unlocking)
  | .waiting =>
    (s.monitor.relock .done (.waiter w)).map fun m => { s with monitor := m }.moveWaiter w .checking
  | .unlocking =>
    (s.monitor.unlock (.waiter w)).map fun m => { s with monitor := m }.moveWaiter w .after
  | .after => none

/-- One statement of a signaller. -/
def State.runSignaller (s : State ω ι) (i : ι) : Option (State ω ι) :=
  match s.signaller i with
  | .before => some (s.goto i .locking)
  | .locking =>
    (s.monitor.lock (.signaller i)).map fun m => { s with monitor := m }.goto i .decrementing
  | .decrementing =>
    some ({ s with counter := s.counter - 1 }.goto i
      (if s.counter - 1 = 0 then .broadcasting else .unlocking))
  | .broadcasting => some ({ s with monitor := s.monitor.broadcast .done }.goto i .unlocking)
  | .unlocking =>
    (s.monitor.unlock (.signaller i)).map fun m => { s with monitor := m }.goto i .finished
  | .finished => none

/-- One step. -/
def State.next (s : State ω ι) : Action ω ι → Option (State ω ι)
  | .run (.waiter w) => s.runWaiter w
  | .run (.signaller i) => s.runSignaller i
  | .wake w => (s.monitor.wake .done (.waiter w)).map fun m => { s with monitor := m }

/-- The latch counts its signallers. -/
def initial (ω ι : Type*) [Fintype ι] : State ω ι :=
  ⟨Fintype.card ι, .new, fun _ => .before, fun _ => .before⟩

/-- All runs of a latch. -/
def latch (ω ι : Type*) [DecidableEq ω] [DecidableEq ι] [Fintype ι] :
    System (State ω ι) (Action ω ι) :=
  ofNext (fun s => s = initial ω ι) State.next

/-- The latch has not been counted down for this signaller. -/
def SignallerPc.due : SignallerPc → Bool
  | .before | .locking | .decrementing => true
  | _ => false

/-- Inside a critical section of the latch. -/
def State.Inside (s : State ω ι) : Party ω ι → Prop
  | .waiter w => s.waiter w = .checking ∨ s.waiter w = .unlocking
  | .signaller i =>
    s.signaller i = .decrementing ∨ s.signaller i = .broadcasting ∨ s.signaller i = .unlocking

/-- The waiter has seen the latch open. -/
def WaiterPc.passed : WaiterPc → Bool
  | .unlocking | .after => true
  | _ => false

/-- What holds of a latch in every run. -/
structure Inv (s : State ω ι) : Prop where
  /-- The mutex is held exactly by the party inside. -/
  held : s.monitor.HeldBy s.Inside
  /-- The counter counts the signallers that have not counted it down. -/
  counted : ∃ n : ℕ, Standing s.signaller (fun q => q.due) n ∧ (n : ℤ) = s.counter
  /-- Only who waits is asleep. -/
  asleep : ∀ w, .waiter w ∈ s.monitor.asleep .done → s.waiter w = .waiting
  /-- When the count is zero and a waiter sleeps, somebody is about to wake it. -/
  woken : s.counter = 0 → ∀ w, .waiter w ∈ s.monitor.asleep .done →
    ∃ i, s.signaller i = .broadcasting
  /-- Behind the latch every signaller is through with it. -/
  passed : ∀ w, (s.waiter w).passed = true → ∀ i, s.signaller i = .finished

variable {s t : State ω ι} {i : ι} {w : ω}

omit [DecidableEq ι] in
/-- A step of a waiter leaves the others where they are. -/
theorem inside_waiter {q : WaiterPc} (hmoved : t.waiter = Function.update s.waiter w q)
    (hsame : t.signaller = s.signaller) :
    ∀ r, r ≠ .waiter w → (t.Inside r ↔ s.Inside r) := by
  intro r hr
  cases r with
  | waiter v =>
    have hv : v ≠ w := fun he => hr (he ▸ rfl)
    simp only [State.Inside, hmoved, Function.update_of_ne hv]
  | signaller i => simp only [State.Inside, hsame]

omit [DecidableEq ω] in
/-- A step of a signaller leaves the waiters and the other signallers where they are. -/
theorem inside_signaller {q : SignallerPc} (hwaiter : t.waiter = s.waiter)
    (hmoved : t.signaller = Function.update s.signaller i q) :
    ∀ r, r ≠ .signaller i → (t.Inside r ↔ s.Inside r) := by
  intro r hr
  cases r with
  | waiter w => simp only [State.Inside, hwaiter]
  | signaller j =>
    have hj : j ≠ i := fun he => hr (he ▸ rfl)
    simp only [State.Inside, hmoved, Function.update_of_ne hj]

omit [DecidableEq ω] [DecidableEq ι] in
/-- While some signaller is not through, no waiter has passed. -/
theorem Inv.not_passed (h : Inv s) (hi : s.signaller i ≠ .finished) (w : ω) :
    (s.waiter w).passed = false := by
  cases hp : (s.waiter w).passed with
  | false => rfl
  | true => exact absurd (h.passed w hp i) hi

omit [DecidableEq ω] in
/-- A signaller that has not finished moves on. -/
theorem Inv.signal (h : Inv s) {q : SignallerPc} {m : Monitor (Party ω ι) Cond} {c : ℤ}
    (hi : s.signaller i ≠ .finished)
    (hheld : m.HeldBy ({ s with counter := c, monitor := m }.goto i q).Inside)
    (hasleep : ∀ w, .waiter w ∈ m.asleep .done → .waiter w ∈ s.monitor.asleep .done)
    (hcount : c + (if (s.signaller i).due then 1 else 0) = s.counter + if q.due then 1 else 0)
    (hwoken : c = 0 → ∀ w, .waiter w ∈ m.asleep .done →
      q = .broadcasting ∨ s.counter = 0 ∧ s.signaller i ≠ .broadcasting) :
    Inv ({ s with counter := c, monitor := m }.goto i q) where
  held := hheld
  counted := by
    obtain ⟨n, hn, hcounter⟩ := h.counted
    refine ⟨_, hn.move i q, ?_⟩
    show _ = c
    have hpos := hn.pos (p := i)
    by_cases hdue : (s.signaller i).due = true
    · have hlt := hpos hdue
      by_cases hq : q.due = true
      · simp only [hdue, hq, if_true] at hcount ⊢
        omega
      · simp only [hdue, hq, if_true, if_false, Bool.false_eq_true] at hcount ⊢
        omega
    · by_cases hq : q.due = true
      · simp only [hdue, hq, if_true, if_false, Bool.false_eq_true] at hcount ⊢
        omega
      · simp only [hdue, hq, if_false, Bool.false_eq_true] at hcount ⊢
        omega
  asleep w hin := h.asleep w (hasleep w hin)
  woken hzero w hin := by
    rcases hwoken hzero w hin with rfl | ⟨hbefore, hnot⟩
    · exact ⟨i, Function.update_self ..⟩
    · obtain ⟨j, hj⟩ := h.woken hbefore w (hasleep w hin)
      have hne : j ≠ i := fun he => hnot (he ▸ hj)
      refine ⟨j, ?_⟩
      show Function.update s.signaller i q j = _
      rw [Function.update_of_ne hne]
      exact hj
  passed w hp := by
    have hnot := h.not_passed hi w
    rw [show (s.waiter w).passed = true from hp] at hnot
    cases hnot

/-- Every statement of a signaller keeps the invariant. -/
theorem Inv.runSignaller (h : Inv s) (hrun : s.runSignaller i = some t) : Inv t := by
  unfold State.runSignaller at hrun
  cases hpc : s.signaller i with
  | before =>
    simp only [hpc, Option.some.injEq] at hrun
    subst hrun
    refine h.signal (by rw [hpc]; nofun) ?_ (fun _ hin => hin) (by rw [hpc]; rfl)
      fun hzero _ _ => .inr ⟨hzero, by rw [hpc]; nofun⟩
    refine h.held.keep rfl ?_ (inside_signaller rfl rfl)
    simp [State.Inside, State.goto, hpc]
  | locking =>
    simp only [hpc] at hrun
    obtain ⟨m, hm, rfl⟩ := Option.map_eq_some_iff.mp hrun
    obtain ⟨hfree, rfl⟩ := Monitor.lock_spec hm
    refine h.signal (by rw [hpc]; nofun) ?_ (fun _ hin => hin) (by rw [hpc]; rfl)
      fun hzero _ _ => .inr ⟨hzero, by rw [hpc]; nofun⟩
    refine h.held.enter hfree rfl ?_ (inside_signaller rfl rfl)
    simp [State.Inside, State.goto]
  | decrementing =>
    simp only [hpc, Option.some.injEq] at hrun
    subst hrun
    have hnotdue : (if s.counter - 1 = 0 then SignallerPc.broadcasting else .unlocking).due = false := by
      split <;> rfl
    refine h.signal (by rw [hpc]; nofun) ?_ (fun _ hin => hin) ?_
      fun hzero _ _ => .inl (if_pos hzero)
    · refine h.held.keep rfl ?_ (inside_signaller rfl rfl)
      simp only [State.Inside, State.goto, hpc, Function.update_self]
      split <;> simp
    · rw [hpc, hnotdue]
      show s.counter - 1 + 1 = s.counter + 0
      omega
  | broadcasting =>
    simp only [hpc, Option.some.injEq] at hrun
    subst hrun
    have hnone : ∀ p, p ∉ (s.monitor.broadcast .done).asleep .done := by
      intro p
      show p ∉ Function.update s.monitor.asleep .done ∅ .done
      rw [Function.update_self]
      exact Finset.notMem_empty p
    refine h.signal (by rw [hpc]; nofun) ?_ (fun _ hin => absurd hin (hnone _)) (by rw [hpc]; rfl)
      fun _ _ hin => absurd hin (hnone _)
    refine h.held.keep rfl ?_ (inside_signaller rfl rfl)
    simp [State.Inside, State.goto, hpc]
  | unlocking =>
    simp only [hpc] at hrun
    obtain ⟨m, hm, rfl⟩ := Option.map_eq_some_iff.mp hrun
    obtain ⟨hheld, rfl⟩ := Monitor.unlock_spec hm
    refine h.signal (by rw [hpc]; nofun) ?_ (fun _ hin => hin) (by rw [hpc]; rfl)
      fun hzero _ _ => .inr ⟨hzero, by rw [hpc]; nofun⟩
    refine h.held.leave hheld rfl ?_ (inside_signaller rfl rfl)
    simp [State.Inside, State.goto]
  | finished =>
    simp only [hpc] at hrun
    cases hrun

omit [DecidableEq ι] in
/-- A waiter moves on. -/
theorem Inv.await (h : Inv s) {q : WaiterPc} {m : Monitor (Party ω ι) Cond}
    (hheld : m.HeldBy ({ s with monitor := m }.moveWaiter w q).Inside)
    (hothers : ∀ v, v ≠ w → .waiter v ∈ m.asleep .done → .waiter v ∈ s.monitor.asleep .done)
    (hasleep : .waiter w ∈ m.asleep .done → q = .waiting ∧ s.counter ≠ 0)
    (hpassed : q.passed = true → ∀ i, s.signaller i = .finished) :
    Inv ({ s with monitor := m }.moveWaiter w q) := by
  have hself : ({ s with monitor := m }.moveWaiter w q).waiter w = q := Function.update_self _ _ _
  have hother : ∀ v, v ≠ w → ({ s with monitor := m }.moveWaiter w q).waiter v = s.waiter v :=
    fun v hv => Function.update_of_ne hv _ _
  refine ⟨hheld, h.counted, fun v hv => ?_, fun hzero v hv => ?_, fun v hv => ?_⟩
  · rcases eq_or_ne v w with rfl | hne
    · exact hself.trans (hasleep hv).1
    · exact (hother v hne).trans (h.asleep v (hothers v hne hv))
  · rcases eq_or_ne v w with rfl | hne
    · exact absurd hzero (hasleep hv).2
    · exact h.woken hzero v (hothers v hne hv)
  · rcases eq_or_ne v w with rfl | hne
    · rw [hself] at hv
      exact hpassed hv
    · rw [hother v hne] at hv
      exact h.passed v hv

omit [DecidableEq ω] [DecidableEq ι] in
/-- With the count at zero and the mutex in a waiter's hands, every signaller is
through with the latch. -/
theorem Inv.all_finished (h : Inv s) (hzero : s.counter = 0)
    (hholder : s.monitor.holder = some (.waiter w)) (i : ι) : s.signaller i = .finished := by
  obtain ⟨n, hn, hcount⟩ := h.counted
  have hn0 : n = 0 := by omega
  rw [hn0] at hn
  have hnotdue := hn.zero i
  have hout : ¬ s.Inside (.signaller i) := by
    intro hin
    have hother := (h.held _).mp hin
    rw [hholder] at hother
    cases hother
  cases hpc : s.signaller i with
  | finished => rfl
  | before | locking =>
    rw [hpc] at hnotdue
    exact absurd rfl hnotdue
  | decrementing => exact absurd (.inl hpc) hout
  | broadcasting => exact absurd (.inr (.inl hpc)) hout
  | unlocking => exact absurd (.inr (.inr hpc)) hout

/-- Every statement of a waiter keeps the invariant. -/
theorem Inv.runWaiter (h : Inv s) (hrun : s.runWaiter w = some t) : Inv t := by
  have hawake : s.waiter w ≠ .waiting → .waiter w ∉ s.monitor.asleep .done :=
    fun hne hin => hne (h.asleep w hin)
  unfold State.runWaiter at hrun
  cases hpc : s.waiter w with
  | before =>
    have hout := hawake (by rw [hpc]; nofun)
    simp only [hpc, Option.some.injEq] at hrun
    subst hrun
    refine h.await ?_ (fun _ _ hv => hv) (fun hin => absurd hin hout) nofun
    refine h.held.keep (p := .waiter w) rfl ?_ (inside_waiter rfl rfl)
    simp [State.Inside, State.moveWaiter, hpc]
  | locking =>
    have hout := hawake (by rw [hpc]; nofun)
    simp only [hpc] at hrun
    obtain ⟨m, hm, rfl⟩ := Option.map_eq_some_iff.mp hrun
    obtain ⟨hfree, rfl⟩ := Monitor.lock_spec hm
    refine h.await ?_ (fun _ _ hv => hv) (fun hin => absurd hin hout) nofun
    exact h.held.enter hfree rfl (.inl (Function.update_self _ _ _)) (inside_waiter rfl rfl)
  | checking =>
    have hout := hawake (by rw [hpc]; nofun)
    have hholder := (h.held (.waiter w)).mp (.inl hpc)
    simp only [hpc] at hrun
    split at hrun
    · next hpos =>
      obtain ⟨m, hm, rfl⟩ := Option.map_eq_some_iff.mp hrun
      obtain ⟨hheld, rfl⟩ := Monitor.wait_spec hm
      refine h.await ?_ (fun v hv hin => ?_) (fun _ => ⟨rfl, by omega⟩) nofun
      · refine h.held.leave hheld rfl ?_ (inside_waiter rfl rfl)
        simp [State.Inside, State.moveWaiter]
      · simpa [hv] using hin
    · next hopen =>
      simp only [Option.some.injEq] at hrun
      subst hrun
      obtain ⟨n, -, hcount⟩ := h.counted
      have hzero : s.counter = 0 := by omega
      refine h.await ?_ (fun _ _ hv => hv) (fun hin => absurd hin hout)
        fun _ => h.all_finished hzero hholder
      refine h.held.keep (p := .waiter w) rfl ?_ (inside_waiter rfl rfl)
      simp [State.Inside, State.moveWaiter, hpc]
  | waiting =>
    simp only [hpc] at hrun
    obtain ⟨m, hm, rfl⟩ := Option.map_eq_some_iff.mp hrun
    obtain ⟨hout, hfree, rfl⟩ := Monitor.relock_spec hm
    refine h.await ?_ (fun _ _ hv => hv) (fun hin => absurd hin hout) nofun
    exact h.held.enter hfree rfl (.inl (Function.update_self _ _ _)) (inside_waiter rfl rfl)
  | unlocking =>
    have hout := hawake (by rw [hpc]; nofun)
    have hfinished := h.passed w (by rw [hpc]; rfl)
    simp only [hpc] at hrun
    obtain ⟨m, hm, rfl⟩ := Option.map_eq_some_iff.mp hrun
    obtain ⟨hheld, rfl⟩ := Monitor.unlock_spec hm
    refine h.await ?_ (fun _ _ hv => hv) (fun hin => absurd hin hout) fun _ => hfinished
    refine h.held.leave hheld rfl ?_ (inside_waiter rfl rfl)
    simp [State.Inside, State.moveWaiter]
  | after =>
    simp only [hpc] at hrun
    cases hrun

/-- A waiter that wakes for no reason. -/
theorem Inv.wake (h : Inv s) {m : Monitor (Party ω ι) Cond}
    (hm : s.monitor.wake .done (.waiter w) = some m) : Inv { s with monitor := m } := by
  have hholder := Monitor.signal_holder hm
  have hsubset : ∀ p, p ∈ m.asleep .done → p ∈ s.monitor.asleep .done := by
    intro p hp
    simp only [Monitor.wake, Monitor.signal, Option.ite_none_right_eq_some,
      Option.some.injEq] at hm
    obtain ⟨-, rfl⟩ := hm
    change p ∈ Function.update s.monitor.asleep .done _ .done at hp
    rw [Function.update_self] at hp
    exact Finset.mem_of_mem_erase hp
  exact { h with
    held := h.held.keep (p := .waiter w) hholder Iff.rfl fun _ _ => Iff.rfl
    asleep := fun v hv => h.asleep v (hsubset _ hv)
    woken := fun hzero v hv => h.woken hzero v (hsubset _ hv) }

variable [Fintype ι]

/-- Every reachable latch satisfies the invariant. -/
theorem inv_reachable (hs : (latch ω ι).Reachable s) : Inv s := by
  refine System.Reachable.invariant (I := Inv) ?_ ?_ hs
  · rintro s rfl
    constructor
    · intro p
      cases p <;> simp [State.Inside, initial, Monitor.new]
    · exact ⟨Fintype.card ι, ⟨Finset.univ, fun i => ⟨fun _ => rfl, fun _ => Finset.mem_univ i⟩, rfl⟩,
        rfl⟩
    · exact fun w hin => absurd hin (Finset.notMem_empty _)
    · exact fun _ w hin => absurd hin (Finset.notMem_empty _)
    · exact fun w => nofun
  · rintro s a t - hI hstep
    have hnext : s.next a = some t := hstep
    match a with
    | .run (.waiter w) => exact hI.runWaiter hnext
    | .run (.signaller i) => exact hI.runSignaller hnext
    | .wake w =>
      obtain ⟨m, hm, rfl⟩ := Option.map_eq_some_iff.mp hnext
      exact hI.wake hm

/-- Behind the latch every signaller is through with it. -/
theorem finished_of_passed (hs : (latch ω ι).Reachable s) (hpassed : (s.waiter w).passed = true)
    (i : ι) : s.signaller i = .finished :=
  (inv_reachable hs).passed w hpassed i

/-- With the mutex free and the count at zero, no waiter is asleep. -/
theorem awake_of_zero (hs : (latch ω ι).Reachable s) (hfree : s.monitor.holder = none)
    (hzero : s.counter = 0) (w : ω) : .waiter w ∉ s.monitor.asleep .done := by
  intro hin
  have h := inv_reachable hs
  obtain ⟨i, hi⟩ := h.woken hzero w hin
  have hholder := (h.held (.signaller i)).mp (.inr (.inl hi))
  rw [hfree] at hholder
  cases hholder

end SistemasOperativos.CountdownLatch
