import SistemasOperativos.CountdownLatch
import SistemasOperativos.CountingGate
import SistemasOperativos.FastLatch

/-!
# The two latches agree

The latch with the atomic counter and the one that counts under its mutex are
both a gate that opens when everybody has signalled. The one with the atomic
counter loses no wake-up: every run of it comes to an end, and there everybody
is through.
-/

namespace SistemasOperativos.FastLatch

open TransitionRuns ConditionMonitor Census
open CountingGate (Gate gate)

variable {ω ι : Type*} [DecidableEq ω] [DecidableEq ι]

/-- The gate behind a latch: who counted it down signalled, and who returned passed. -/
def Opens (s : State ω ι) (g : Gate ω ι) : Prop :=
  g.Shows (fun i => s.signaller i ≠ .subtracting) fun w => s.waiter w = .after

variable {s t : State ω ι} {g : Gate ω ι} {i : ι} {w : ω}

/-- A statement of a signaller takes it on, and nobody else. -/
theorem runSignaller_moves (hrun : s.runSignaller i = some t) :
    t.waiter = s.waiter ∧
      ∃ q, q ≠ .subtracting ∧ t.signaller = Function.update s.signaller i q := by
  unfold State.runSignaller at hrun
  split at hrun
  · cases hrun
    exact ⟨rfl, _, by split <;> simp, rfl⟩
  · obtain ⟨m, -, rfl⟩ := Option.map_eq_some_iff.mp hrun
    exact ⟨rfl, _, by simp, rfl⟩
  · cases hrun
    exact ⟨rfl, _, by simp, rfl⟩
  · obtain ⟨m, -, rfl⟩ := Option.map_eq_some_iff.mp hrun
    exact ⟨rfl, _, by simp, rfl⟩
  · cases hrun

/-- A statement of a waiter takes it on, and nobody else. It returns from its unlock. -/
theorem runWaiter_moves (hrun : s.runWaiter w = some t) :
    t.signaller = s.signaller ∧ s.waiter w ≠ .after ∧
      ∃ q, (q = .after ↔ s.waiter w = .unlocking) ∧ t.waiter = Function.update s.waiter w q := by
  unfold State.runWaiter at hrun
  cases hpc : s.waiter w with
  | loading =>
    simp only [hpc, Option.some.injEq] at hrun
    subst hrun
    exact ⟨rfl, by simp, _, by split <;> simp, rfl⟩
  | locking | sleeping | waiting | unlocking =>
    simp only [hpc] at hrun
    obtain ⟨m, -, rfl⟩ := Option.map_eq_some_iff.mp hrun
    exact ⟨rfl, by simp, _, by simp, rfl⟩
  | after =>
    simp only [hpc] at hrun
    cases hrun

omit [DecidableEq ω] [DecidableEq ι] in
/-- With the count at zero everybody counted it down. -/
theorem Inv.all_counted (h : Inv s) (hzero : s.counter = 0) (i : ι) :
    s.signaller i ≠ .subtracting := by
  obtain ⟨n, hn, hcounter⟩ := h.counted
  have hnone : n = 0 := by omega
  rw [hnone] at hn
  exact hn.zero i

variable [Fintype ι]

/-- The latch with the atomic counter is a gate. -/
theorem opens_simulation : Simulation (latch ω ι) (gate ω ι) Opens where
  init := by
    rintro s rfl
    refine ⟨⟨∅, ∅⟩, rfl, fun i => ?_, fun w => ?_⟩
    · exact iff_of_false (Finset.notMem_empty i) fun hne => hne rfl
    · exact iff_of_false (Finset.notMem_empty w) (by simp [cdlInit])
  step s a t g hs h hstep := by
    have hnext : s.next a = some t := hstep
    cases a with
    | run p =>
      cases p with
      | signaller i =>
        obtain ⟨hwaiter, q, hq, hmoved⟩ := runSignaller_moves hnext
        simp only [Opens, hwaiter, hmoved]
        refine h.signal (i := i) (by rwa [Function.update_self]) fun j hj => ?_
        rw [Function.update_of_ne hj]
      | waiter w =>
        obtain ⟨hsignaller, hbefore, q, hq, hmoved⟩ := runWaiter_moves hnext
        have hI := inv_reachable hs
        simp only [Opens, hsignaller, hmoved]
        refine h.pass (w := w) hbefore (fun hafter => ?_) fun v hv => ?_
        · rw [Function.update_self] at hafter
          exact hI.all_counted (hI.passed w (by rw [hq.mp hafter]; trivial))
        · rw [Function.update_of_ne hv]
    | wake w =>
      simp only [State.next] at hnext
      split at hnext
      · obtain ⟨m, -, rfl⟩ := Option.map_eq_some_iff.mp hnext
        exact ⟨g, .refl, h⟩
      · cases hnext

/-- Nobody returns before everybody counted the latch down, as at a gate. -/
theorem counted_of_returned (hs : (latch ω ι).Reachable s) (hw : s.waiter w = .after) (i : ι) :
    s.signaller i ≠ .subtracting := by
  obtain ⟨g, hg, hopens⟩ := opens_simulation.reachable hs
  have hall := CountingGate.all_signalled hg ((hopens.passed w).mpr hw)
  exact (hopens.signalled i).mp (by rw [hall]; exact Finset.mem_univ i)

end SistemasOperativos.FastLatch

namespace SistemasOperativos.CountdownLatch

open TransitionRuns ConditionMonitor
open CountingGate (Gate gate)

variable {ω ι : Type*} [DecidableEq ω] [DecidableEq ι]

/-- The gate behind the latch that counts under its mutex. -/
def Opens (s : State ω ι) (g : Gate ω ι) : Prop :=
  g.Shows (fun i => (s.signaller i).due = false) fun w => s.waiter w = .after

variable {s t : State ω ι} {i : ι} {w : ω}

/-- A statement of a signaller takes it on, and nobody else. It counts once. -/
theorem runSignaller_moves (hrun : s.runSignaller i = some t) :
    t.waiter = s.waiter ∧ ∃ q, ((s.signaller i).due = false → q.due = false) ∧
      t.signaller = Function.update s.signaller i q := by
  unfold State.runSignaller at hrun
  cases hpc : s.signaller i with
  | before =>
    simp only [hpc, Option.some.injEq] at hrun
    subst hrun
    exact ⟨rfl, _, by simp [SignallerPc.due], rfl⟩
  | decrementing =>
    simp only [hpc, Option.some.injEq] at hrun
    subst hrun
    exact ⟨rfl, _, by simp [SignallerPc.due], rfl⟩
  | broadcasting =>
    simp only [hpc, Option.some.injEq] at hrun
    subst hrun
    exact ⟨rfl, _, by simp [SignallerPc.due], rfl⟩
  | locking | unlocking =>
    simp only [hpc] at hrun
    obtain ⟨m, -, rfl⟩ := Option.map_eq_some_iff.mp hrun
    exact ⟨rfl, _, by simp [SignallerPc.due], rfl⟩
  | finished =>
    simp only [hpc] at hrun
    cases hrun

/-- A statement of a waiter takes it on, and nobody else. It returns from its unlock. -/
theorem runWaiter_moves (hrun : s.runWaiter w = some t) :
    t.signaller = s.signaller ∧ s.waiter w ≠ .after ∧
      ∃ q, (q = .after → s.waiter w = .unlocking) ∧ t.waiter = Function.update s.waiter w q := by
  unfold State.runWaiter at hrun
  cases hpc : s.waiter w with
  | before =>
    simp only [hpc, Option.some.injEq] at hrun
    subst hrun
    exact ⟨rfl, by simp, _, by simp, rfl⟩
  | checking =>
    simp only [hpc] at hrun
    split at hrun
    · obtain ⟨m, -, rfl⟩ := Option.map_eq_some_iff.mp hrun
      exact ⟨rfl, by simp, _, by simp, rfl⟩
    · cases hrun
      exact ⟨rfl, by simp, _, by simp, rfl⟩
  | locking | waiting | unlocking =>
    simp only [hpc] at hrun
    obtain ⟨m, -, rfl⟩ := Option.map_eq_some_iff.mp hrun
    exact ⟨rfl, by simp, _, by simp, rfl⟩
  | after =>
    simp only [hpc] at hrun
    cases hrun

variable [Fintype ι]

/-- The latch that counts under its mutex is a gate. -/
theorem opens_simulation : Simulation (latch ω ι) (gate ω ι) Opens where
  init := by
    rintro s rfl
    refine ⟨⟨∅, ∅⟩, rfl, fun i => ?_, fun w => ?_⟩
    · exact iff_of_false (Finset.notMem_empty i) (by simp [initial, SignallerPc.due])
    · exact iff_of_false (Finset.notMem_empty w) (by simp [initial])
  step s a t g hs h hstep := by
    have hnext : s.next a = some t := hstep
    cases a with
    | run p =>
      cases p with
      | signaller i =>
        obtain ⟨hwaiter, q, hq, hmoved⟩ := runSignaller_moves hnext
        simp only [Opens, hwaiter, hmoved]
        by_cases hcounts : q.due = false
        · refine h.signal (i := i) (by rwa [Function.update_self]) fun j hj => ?_
          rw [Function.update_of_ne hj]
        · refine ⟨g, .refl, fun j => ?_, h.passed⟩
          rcases eq_or_ne j i with rfl | hj
          · rw [Function.update_self, h.signalled]
            exact iff_of_false (fun hdue => hcounts (hq hdue)) hcounts
          · rw [Function.update_of_ne hj, h.signalled]
      | waiter w =>
        obtain ⟨hsignaller, hbefore, q, hq, hmoved⟩ := runWaiter_moves hnext
        simp only [Opens, hsignaller, hmoved]
        refine h.pass (w := w) hbefore (fun hafter i => ?_) fun v hv => ?_
        · rw [Function.update_self] at hafter
          have hfinished := (inv_reachable hs).passed w (by rw [hq hafter]; rfl) i
          rw [hfinished]
          rfl
        · rw [Function.update_of_ne hv]
    | wake w =>
      obtain ⟨m, -, rfl⟩ := Option.map_eq_some_iff.mp hnext
      exact ⟨g, .refl, h⟩

end SistemasOperativos.CountdownLatch
