import SistemasOperativos.FastLatchAgreement

/-!
# The runs of the latch with the atomic counter

Every statement takes something off the work that is left, and where nobody can
go on everybody is through. The price of the atomic counter is the lifetime of
the latch: a wait may return while the last signaller still has to take the
mutex.
-/

namespace SistemasOperativos.FastLatch

open TransitionRuns ConditionMonitor Census
open CountingGate (Gate gate)

variable {ω ι : Type*} [DecidableEq ω] [DecidableEq ι]

/-- Statements up to the return of `cdl_signal_one`. -/
def SignallerPc.left : SignallerPc → ℕ
  | .subtracting => 4
  | .locking => 3
  | .broadcasting => 2
  | .unlocking => 1
  | .finished => 0

/-- Statements up to the return of `cdl_wait_for_all`. While the count is positive a waiter
that is awake has to fall asleep first. -/
def WaiterPc.left (positive asleep : Bool) : WaiterPc → ℕ
  | .locking => if positive then 6 else 3
  | .loading => if positive then 5 else 2
  | .sleeping => 4
  | .waiting => if positive && !asleep then 6 else 3
  | .unlocking => 1
  | .after => 0

/-- The statements that are left to a waiter. -/
def State.waiterLeft (s : State ω ι) (w : ω) : ℕ :=
  (s.waiter w).left (decide (s.counter > 0)) (decide (.waiter w ∈ s.monitor.asleep .done))

variable {s t : State ω ι} {i : ι} {w : ω}

section Statements

/-- The count only goes down, and a waiter that does not move has no more left. -/
theorem waiterLeft_le (hwaiter : t.waiter w = s.waiter w) (hcounter : t.counter ≤ s.counter)
    (hasleep : .waiter w ∈ s.monitor.asleep .done → .waiter w ∈ t.monitor.asleep .done ∨
      t.counter ≤ 0) : t.waiterLeft w ≤ s.waiterLeft w := by
  have hpositive : t.counter > 0 → s.counter > 0 := fun hlt => by omega
  simp only [State.waiterLeft, hwaiter]
  cases s.waiter w with
  | sleeping | unlocking | after => exact Nat.le_refl _
  | locking | loading =>
    simp only [WaiterPc.left, decide_eq_true_eq]
    split <;> split <;> omega
  | waiting =>
    simp only [WaiterPc.left, Bool.and_eq_true, Bool.not_eq_true', decide_eq_true_eq,
      decide_eq_false_iff_not]
    split
    next hlong =>
      have hbefore : s.counter > 0 ∧ .waiter w ∉ s.monitor.asleep .done :=
        ⟨hpositive hlong.1, fun hin => (hasleep hin).elim hlong.2 (by omega)⟩
      rw [if_pos hbefore]
    next => split <;> omega

/-- Where a waiter moves to. -/
theorem waiterLeft_move (u : State ω ι) (w : ω) (q : WaiterPc) :
    (u.moveWaiter w q).waiterLeft w =
      q.left (decide (u.counter > 0)) (decide (.waiter w ∈ u.monitor.asleep .done)) := by
  show (Function.update u.waiter w q w).left _ _ = _
  rw [Function.update_self]
  rfl

/-- A statement of a signaller leaves no waiter with more. -/
theorem Inv.signaller_waiterLeft (h : Inv s) (hrun : s.runSignaller i = some t) (w : ω) :
    t.waiterLeft w ≤ s.waiterLeft w := by
  unfold State.runSignaller at hrun
  cases hpc : s.signaller i with
  | subtracting =>
    simp only [hpc, Option.some.injEq] at hrun
    subst hrun
    refine waiterLeft_le rfl ?_ .inl
    show s.counter - 1 ≤ s.counter
    omega
  | locking =>
    simp only [hpc] at hrun
    obtain ⟨m, hm, rfl⟩ := Option.map_eq_some_iff.mp hrun
    obtain ⟨-, rfl⟩ := Monitor.lock_spec hm
    exact waiterLeft_le rfl le_rfl .inl
  | broadcasting =>
    simp only [hpc, Option.some.injEq] at hrun
    subst hrun
    have hzero := (h.last i (by rw [hpc]; trivial)).1
    exact waiterLeft_le rfl le_rfl fun _ => .inr hzero.le
  | unlocking =>
    simp only [hpc] at hrun
    obtain ⟨m, hm, rfl⟩ := Option.map_eq_some_iff.mp hrun
    obtain ⟨-, rfl⟩ := Monitor.unlock_spec hm
    exact waiterLeft_le rfl le_rfl .inl
  | finished =>
    simp only [hpc] at hrun
    cases hrun

/-- It takes the signaller one statement on. -/
theorem signaller_left (hrun : s.runSignaller i = some t) :
    ∃ q, q.left < (s.signaller i).left ∧ t.signaller = Function.update s.signaller i q := by
  unfold State.runSignaller at hrun
  cases hpc : s.signaller i with
  | subtracting =>
    simp only [hpc, Option.some.injEq] at hrun
    subst hrun
    exact ⟨_, by split <;> simp [SignallerPc.left], rfl⟩
  | broadcasting =>
    simp only [hpc, Option.some.injEq] at hrun
    subst hrun
    exact ⟨_, by simp [SignallerPc.left], rfl⟩
  | locking | unlocking =>
    simp only [hpc] at hrun
    obtain ⟨m, -, rfl⟩ := Option.map_eq_some_iff.mp hrun
    exact ⟨_, by simp [SignallerPc.left], rfl⟩
  | finished =>
    simp only [hpc] at hrun
    cases hrun

/-- A statement of a waiter takes it on, and leaves no other one with more. -/
theorem waiter_left (hrun : s.runWaiter w = some t) :
    t.waiterLeft w < s.waiterLeft w ∧ ∀ v, v ≠ w → t.waiterLeft v ≤ s.waiterLeft v := by
  have hother : ∀ (u : State ω ι) q v, v ≠ w → (u.moveWaiter w q).waiter v = u.waiter v :=
    fun u q v hv => Function.update_of_ne hv _ _
  unfold State.runWaiter at hrun
  cases hpc : s.waiter w with
  | locking =>
    simp only [hpc] at hrun
    obtain ⟨m, hm, rfl⟩ := Option.map_eq_some_iff.mp hrun
    obtain ⟨-, rfl⟩ := Monitor.lock_spec hm
    refine ⟨?_, fun v hv => waiterLeft_le (hother _ _ v hv) le_rfl .inl⟩
    rw [waiterLeft_move, State.waiterLeft, hpc]
    simp only [WaiterPc.left]
    split <;> omega
  | loading =>
    simp only [hpc, Option.some.injEq] at hrun
    subst hrun
    refine ⟨?_, fun v hv => waiterLeft_le (hother _ _ v hv) le_rfl .inl⟩
    rw [waiterLeft_move, State.waiterLeft, hpc]
    by_cases hmore : s.counter > 0
    · simp [WaiterPc.left, hmore]
    · simp [WaiterPc.left, hmore]
  | sleeping =>
    simp only [hpc] at hrun
    obtain ⟨m, hm, rfl⟩ := Option.map_eq_some_iff.mp hrun
    obtain ⟨-, rfl⟩ := Monitor.wait_spec hm
    refine ⟨?_, fun v hv => waiterLeft_le (hother _ _ v hv) le_rfl fun hin => .inl ?_⟩
    · rw [waiterLeft_move, State.waiterLeft, hpc]
      simp [WaiterPc.left]
    · simp [State.moveWaiter, hin]
  | waiting =>
    simp only [hpc] at hrun
    obtain ⟨m, hm, rfl⟩ := Option.map_eq_some_iff.mp hrun
    obtain ⟨hout, -, rfl⟩ := Monitor.relock_spec hm
    refine ⟨?_, fun v hv => waiterLeft_le (hother _ _ v hv) le_rfl .inl⟩
    rw [waiterLeft_move, State.waiterLeft, hpc]
    simp only [WaiterPc.left, hout, decide_false, Bool.not_false, Bool.and_true]
    split <;> omega
  | unlocking =>
    simp only [hpc] at hrun
    obtain ⟨m, hm, rfl⟩ := Option.map_eq_some_iff.mp hrun
    obtain ⟨-, rfl⟩ := Monitor.unlock_spec hm
    refine ⟨?_, fun v hv => waiterLeft_le (hother _ _ v hv) le_rfl .inl⟩
    rw [waiterLeft_move, State.waiterLeft, hpc]
    exact Nat.zero_lt_one
  | after =>
    simp only [hpc] at hrun
    cases hrun

/-- A wake-up for no reason gives the waiter that wakes three statements back. -/
theorem wake_left {m : Monitor (Party ω ι) Cond} (hm : s.monitor.wake .done (.waiter w) = some m)
    (hpc : s.waiter w = .waiting) :
    State.waiterLeft { s with monitor := m } w ≤ s.waiterLeft w + 3 ∧
      ∀ v, v ≠ w → State.waiterLeft { s with monitor := m } v ≤ s.waiterLeft v := by
  simp only [Monitor.wake, Monitor.signal, Option.ite_none_right_eq_some, Option.some.injEq] at hm
  obtain ⟨-, rfl⟩ := hm
  refine ⟨?_, fun v hv => waiterLeft_le rfl le_rfl fun hin => .inl (by simpa [hv] using hin)⟩
  simp only [State.waiterLeft, hpc, WaiterPc.left]
  split <;> split <;> omega

end Statements

variable [Fintype ω] [Fintype ι]

/-- The work that is left. -/
def workLeft (s : State ω ι) : ℕ := (∑ w, s.waiterLeft w) + ∑ i, (s.signaller i).left

/-- What a wake-up for no reason gives back. -/
def Action.gain : Action ω ι → ℕ
  | .run _ => 0
  | .wake _ => 4

/-- Every step takes something off the work that is left, up to what it gives back. -/
theorem Inv.workLeft_lt (h : Inv s) {a : Action ω ι} (hnext : s.next a = some t) :
    workLeft t < workLeft s + a.gain := by
  match a with
  | .run (.signaller i) =>
    have hwaiters : (∑ w, t.waiterLeft w) ≤ ∑ w, s.waiterLeft w :=
      Finset.sum_le_sum fun w _ => h.signaller_waiterLeft hnext w
    obtain ⟨q, hless, hmoved⟩ := signaller_left hnext
    have hsignallers : (∑ i, (t.signaller i).left) < ∑ i, (s.signaller i).left := by
      refine sum_lt_of_moved i (by rwa [hmoved, Function.update_self]) fun j hj => ?_
      rw [hmoved, Function.update_of_ne hj]
    simp only [workLeft, Action.gain]
    omega
  | .run (.waiter w) =>
    obtain ⟨hless, hothers⟩ := waiter_left hnext
    have hwaiters := sum_lt_of_moved w hless hothers
    have hsame := (runWaiter_moves hnext).1
    simp only [workLeft, Action.gain, hsame]
    omega
  | .wake w =>
    simp only [State.next] at hnext
    split at hnext
    next hpc =>
      obtain ⟨m, hm, rfl⟩ := Option.map_eq_some_iff.mp hnext
      obtain ⟨hself, hothers⟩ := wake_left hm hpc
      have hsum := sum_moved w none 0 fun v hv => by simpa using hothers v hv
      simp only [workLeft, Action.gain]
      omega
    next => cases hnext

omit [Fintype ω] [Fintype ι] in
/-- Where nobody can go on everybody is through. -/
theorem Inv.through (h : Inv s) (hblocked : ∀ p, s.next (.run p) = none) :
    (∀ w, s.waiter w = .after) ∧ ∀ i, s.signaller i = .finished := by
  have hfree : s.monitor.holder = none := by
    cases hholder : s.monitor.holder with
    | none => rfl
    | some p =>
      have hin := (h.held p).mpr hholder
      have hnone := hblocked p
      cases p with
      | waiter w =>
        rcases hin with hpc | hpc | hpc
        · simp [State.next, State.runWaiter, hpc] at hnone
        · simp [State.next, State.runWaiter, hpc, Monitor.wait, hholder] at hnone
        · simp [State.next, State.runWaiter, hpc, Monitor.unlock, hholder] at hnone
      | signaller i =>
        rcases hin with hpc | hpc
        · simp [State.next, State.runSignaller, hpc] at hnone
        · simp [State.next, State.runSignaller, hpc, Monitor.unlock, hholder] at hnone
  have hout : ∀ p, ¬ s.Inside p := fun p hin => by
    have hheld := (h.held p).mp hin
    rw [hfree] at hheld
    cases hheld
  have hfinished : ∀ i, s.signaller i = .finished := by
    intro i
    have hnone := hblocked (.signaller i)
    cases hpc : s.signaller i with
    | subtracting => simp [State.next, State.runSignaller, hpc] at hnone
    | locking => simp [State.next, State.runSignaller, hpc, Monitor.lock, hfree] at hnone
    | broadcasting => exact absurd (.inl hpc) (hout (.signaller i))
    | unlocking => exact absurd (.inr hpc) (hout (.signaller i))
    | finished => rfl
  obtain ⟨n, hn, hcounter⟩ := h.counted
  have hzero : s.counter = 0 := by
    by_contra hne
    obtain ⟨i, hi⟩ := hn.exists_of_pos (by omega)
    rw [hfinished i] at hi
    cases hi
  refine ⟨fun w => ?_, hfinished⟩
  have hnone := hblocked (.waiter w)
  cases hpc : s.waiter w with
  | locking => simp [State.next, State.runWaiter, hpc, Monitor.lock, hfree] at hnone
  | loading => exact absurd (.inl hpc) (hout (.waiter w))
  | sleeping => exact absurd (.inr (.inl hpc)) (hout (.waiter w))
  | unlocking => exact absurd (.inr (.inr hpc)) (hout (.waiter w))
  | waiting =>
    by_cases hin : .waiter w ∈ s.monitor.asleep .done
    · obtain ⟨i, hi | hi⟩ := h.woken hzero w hin
      · rw [hfinished] at hi
        cases hi
      · rw [hfinished] at hi
        cases hi
    · simp [State.next, State.runWaiter, hpc, Monitor.relock, hin, Monitor.lock, hfree] at hnone
  | after => rfl

/-- The latch with the atomic counter agrees with the one that counts under its mutex: both
are the gate that opens when everybody has signalled. No run of it is longer than four
statements for each signaller and six for each waiter, with four for each wake-up for no
reason, and where nobody can go on every call has returned. -/
theorem fast_latch_agrees :
    Simulation (latch ω ι) (gate ω ι) Opens ∧
    Simulation (CountdownLatch.latch ω ι) (gate ω ι) CountdownLatch.Opens ∧
    (∀ trace (t : State ω ι), (latch ω ι).Run (cdlInit ω ι) trace t →
      trace.length ≤ 6 * Fintype.card ω + 4 * Fintype.card ι +
        (trace.map fun x => x.label.gain).sum) ∧
    ∀ s : State ω ι, (latch ω ι).Reachable s → (∀ p, s.next (.run p) = none) →
      (∀ w, s.waiter w = .after) ∧ ∀ i, s.signaller i = .finished := by
  refine ⟨opens_simulation, CountdownLatch.opens_simulation, fun trace t hrun => ?_,
    fun s hs hblocked => (inv_reachable hs).through hblocked⟩
  have hbound := hrun.length_le_gain workLeft Action.gain
    (fun s a t hs hstep => (inv_reachable hs).workLeft_lt hstep) (.start rfl)
  have hwaiters : (∑ w, (cdlInit ω ι).waiterLeft w) ≤ 6 * Fintype.card ω := by
    rw [Nat.mul_comm, ← Finset.card_univ, ← smul_eq_mul]
    refine Finset.sum_le_card_nsmul _ _ _ fun w _ => ?_
    show (if decide (((Fintype.card ι : ℕ) : ℤ) > 0) = true then 6 else 3) ≤ 6
    split <;> omega
  have hsignallers : (∑ i, ((cdlInit ω ι).signaller i).left) = 4 * Fintype.card ι := by
    rw [Nat.mul_comm]
    exact Finset.sum_const _
  simp only [workLeft] at hbound
  omega

section Lifetime

/-- Behind a wait that returned every signaller is through with the latch. -/
def State.Unused (s : State ω ι) : Prop :=
  ∀ w, s.waiter w = .after → ∀ i, s.signaller i = .finished

/-- A waiter does not return while a signaller waits for the mutex. -/
def Awaited (s : State ω ι) : Action ω ι → Prop
  | .run (.waiter w) => s.waiter w = .unlocking → ∀ i, s.signaller i ≠ .locking
  | .run (.signaller _) | .wake _ => True

omit [Fintype ω] in
instance (s : State ω ι) : (a : Action ω ι) → Decidable (Awaited s a)
  | .run (.waiter w) =>
    inferInstanceAs (Decidable (s.waiter w = .unlocking → ∀ i, s.signaller i ≠ .locking))
  | .run (.signaller _) | .wake _ => .isTrue trivial

omit [DecidableEq ω] [DecidableEq ι] [Fintype ω] [Fintype ι] in
/-- When a waiter is about to return, a signaller that is not through waits for the mutex. -/
theorem Inv.finished_or_locking (h : Inv s) (hpc : s.waiter w = .unlocking) (i : ι) :
    s.signaller i = .finished ∨ s.signaller i = .locking := by
  have hzero := h.passed w (by rw [hpc]; trivial)
  have hinside : s.Inside (.waiter w) := .inr (.inr hpc)
  have hout : ¬ s.Inside (.signaller i) := fun hin => by
    cases h.held.unique hinside hin
  cases hi : s.signaller i with
  | subtracting => exact absurd hi (h.all_counted hzero i)
  | locking => exact .inr rfl
  | broadcasting => exact absurd (.inl hi) hout
  | unlocking => exact absurd (.inr hi) hout
  | finished => exact .inl rfl

omit [Fintype ω] [Fintype ι] in
/-- Whoever returns leaves the latch unused exactly when no signaller waits for the mutex. -/
theorem Inv.unused_step (h : Inv s) (hunused : s.Unused) {a : Action ω ι}
    (hnext : s.next a = some t) : t.Unused ↔ Awaited s a := by
  match a with
  | .run (.signaller i) =>
    refine iff_of_true (fun w hw => ?_) trivial
    rw [(runSignaller_moves hnext).1] at hw
    have hrun : s.runSignaller i = some t := hnext
    simp [State.runSignaller, hunused w hw i] at hrun
  | .run (.waiter w) =>
    obtain ⟨hsame, -, q, hq, hmoved⟩ := runWaiter_moves hnext
    have hself : t.waiter w = q := by rw [hmoved, Function.update_self]
    have hother : ∀ v, v ≠ w → t.waiter v = s.waiter v := fun v hv => by
      rw [hmoved, Function.update_of_ne hv]
    constructor
    · intro ht hpc i hi
      have hfinished := ht w (hself.trans (hq.mpr hpc)) i
      rw [hsame, hi] at hfinished
      cases hfinished
    · intro hawaited v hv i
      rw [hsame]
      rcases eq_or_ne v w with rfl | hne
      · have hpc := hq.mp (hself.symm.trans hv)
        exact (h.finished_or_locking hpc i).resolve_right (hawaited hpc i)
      · exact hunused v ((hother v hne).symm.trans hv) i
  | .wake w =>
    refine iff_of_true (fun v hv => ?_) trivial
    simp only [State.next] at hnext
    split at hnext
    · obtain ⟨m, -, rfl⟩ := Option.map_eq_some_iff.mp hnext
      exact hunused v hv
    · cases hnext

omit [Fintype ω] in
/-- When the latch outlives its users: along a run nobody has returned from a wait before
every signaller is through, exactly when no waiter unlocks while a signaller waits for the
mutex. Otherwise all signallers but one are through, and that one still uses the mutex. -/
theorem fast_latch_unused_iff {t : State ω ι} {trace : List (Transition (State ω ι) (Action ω ι))}
    (hrun : (latch ω ι).Run (cdlInit ω ι) trace t) :
    ((∀ x ∈ trace, x.target.Unused) ↔ ∀ x ∈ trace, Awaited x.source x.label) ∧
    ∀ w, t.waiter w = .after → ∀ i j, t.signaller i ≠ .finished → t.signaller j ≠ .finished →
      i = j ∧ (t.signaller i).Slow := by
  have ht := hrun.reachable (.start rfl)
  have hI : Inv t := inv_reachable ht
  constructor
  · have hstart : Inv (cdlInit ω ι) ∧ (cdlInit ω ι).Unused :=
      ⟨inv_reachable (.start rfl), fun w hw => WaiterPc.noConfusion hw⟩
    refine hrun.forall_good_iff_of_invariant (I := fun s => Inv s ∧ s.Unused) hstart
      (fun s h => h.2) (fun s a t h hstep hall => ?_) fun s a t h hstep ht => ?_
    · exact ⟨h.1.next hstep, (h.1.unused_step h.2 hstep).mpr hall⟩
    · exact (h.1.unused_step h.2 hstep).mp ht
  · intro w hw i j hi hj
    have hslow : ∀ i, t.signaller i ≠ .finished → (t.signaller i).Slow := fun i hi => by
      cases hpc : t.signaller i with
      | subtracting => exact absurd hpc (counted_of_returned ht hw i)
      | finished => exact absurd hpc hi
      | locking | broadcasting | unlocking => trivial
    exact ⟨(hI.last j (hslow j hj)).2 i (hslow i hi), hslow i hi⟩

/-- The waiter reads zero and returns while the last signaller waits for the mutex. -/
theorem unused_fails_of_early_return : ∃ trace t,
    (latch Unit Bool).Run (cdlInit Unit Bool) trace t ∧ t.waiter () = .after ∧
      t.signaller true = .locking ∧ ¬ ∀ x ∈ trace, x.target.Unused := by
  obtain ⟨trace, s, hrun, -, hp⟩ := @System.Run.exists_of_any (State Unit Bool)
    (Action Unit Bool) (fun s => s = cdlInit Unit Bool) State.next (fun _ _ => True) _
    (fun s => decide (s.waiter () = .unlocking ∧ s.signaller true = .locking ∧
      s.monitor.holder = some (.waiter ())))
    [.run (.signaller false), .run (.signaller true), .run (.waiter ()), .run (.waiter ())]
    (s := cdlInit Unit Bool) (by decide +kernel)
  obtain ⟨hwaiter, hsignaller, hholder⟩ := of_decide_eq_true hp
  have hstep : s.next (.run (.waiter ())) =
      some ({ s with monitor := { s.monitor with holder := none } }.moveWaiter () .after) := by
    simp [State.next, State.runWaiter, hwaiter, Monitor.unlock, hholder]
  have hlonger := hrun.snoc hstep
  refine ⟨_, _, hlonger, rfl, hsignaller, fun hall => ?_⟩
  have hawaited := (fast_latch_unused_iff hlonger).1.mp hall _
    (List.mem_append_right _ (List.mem_singleton.mpr rfl))
  exact hawaited hwaiter true hsignaller

end Lifetime

end SistemasOperativos.FastLatch
