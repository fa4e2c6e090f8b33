import SistemasOperativos.MutexChannelRefinement
import SistemasOperativos.MutexChannelWakeups

/-!
# When nobody in a channel can go on

The holder of the mutex can always execute its next statement, and with the
mutex free so can everybody who is not asleep. When nobody can, those who sleep
find nothing to take: the channel is empty for a get and full for a put.
-/

namespace SistemasOperativos.MutexChannel

open TransitionRuns ConditionMonitor MachineInt Census

/-- Statements up to the return of a call. A sleeper that is woken has two more. -/
def callLeft : Place → ℕ
  | (.idle, _) => 13
  | (.locking _, _) => 12
  | (.waiting _, asleep) => if asleep then 10 else 12
  | (.checking _, _) => 11
  | (.copying _, _) => 9
  | (.advancing _, _) => 8
  | (.wrapping _, _) => 7
  | (.counting _, _) => 6
  | (.unlocking _, _) => 5
  | (.signaling _, _) => 4

variable {π : Type*} [DecidableEq π] {elemSize capacity : ℤ} {s t : State π} {p : π}

/-- Nobody in the channel can execute a statement of its call. -/
def Stuck (s : State π) : Prop :=
  ∀ p, s.run p = none ∧ ∀ w, s.next (p, .signal w) = none

/-- With nobody able to go on, nobody holds the mutex. -/
theorem Stuck.free (hstuck : Stuck s) (hholding : s.monitor.HeldBy fun p => (s.pc p).Holding) :
    s.monitor.holder = none := by
  cases hholder : s.monitor.holder with
  | none => rfl
  | some p =>
    have hinside : (s.pc p).Holding := (hholding p).mpr hholder
    have hrun := (hstuck p).1
    cases hpc : s.pc p with
    | idle | locking | waiting | signaling =>
      rw [hpc] at hinside
      exact hinside.elim
    | checking c =>
      simp only [State.run, hpc] at hrun
      split at hrun
      · simp [Monitor.wait, hholder] at hrun
      · cases hrun
    | copying c | advancing c | wrapping c | counting c => simp [State.run, hpc] at hrun
    | unlocking c => simp [State.run, hpc, Monitor.unlock, hholder] at hrun

/-- Then everybody is idle or asleep. -/
theorem Stuck.idle_or_asleep (hstuck : Stuck s)
    (hholding : s.monitor.HeldBy fun p => (s.pc p).Holding) (p : π) :
    s.pc p = .idle ∨ ∃ c, s.pc p = .waiting c ∧ p ∈ s.monitor.asleep c.waitsFor := by
  have hfree := hstuck.free hholding
  obtain ⟨hrun, hsignal⟩ := hstuck p
  cases hpc : s.pc p with
  | idle => exact .inl rfl
  | locking c => simp [State.run, hpc, Monitor.lock, hfree] at hrun
  | waiting c =>
    refine .inr ⟨c, rfl, ?_⟩
    by_contra hawake
    simp [State.run, hpc, Monitor.relock, hawake, Monitor.lock, hfree] at hrun
  | signaling c =>
    obtain ⟨w, m, hm⟩ := s.monitor.exists_signal c.signals
    have hnone := hsignal w
    simp [State.next, hpc, hm] at hnone
  | checking c | copying c | advancing c | wrapping c | counting c | unlocking c =>
    have hinside : (s.pc p).Holding := by rw [hpc]; trivial
    have hheld := (hholding p).mp hinside
    rw [hfree] at hheld
    cases hheld

/-- And whoever sleeps finds nothing available. -/
theorem Stuck.blocked (hstuck : Stuck s) (hwake : WakeInv capacity s) {c : Call}
    (hpc : s.pc p = .waiting c) : c.blocked s.rb := by
  have hall := hstuck.idle_or_asleep hwake.holding
  have hasleep : p ∈ s.monitor.asleep c.waitsFor := by
    rcases hall p with hidle | ⟨d, hd, hmem⟩
    · rw [hpc] at hidle
      cases hidle
    · rw [hpc] at hd
      cases hd
      exact hmem
  obtain ⟨n, hn, hle⟩ := hwake.owed c.waitsFor
  have hzero : n = 0 := by
    by_contra hne
    obtain ⟨r, hr⟩ := hn.exists_of_pos (Nat.pos_of_ne_zero hne)
    rcases hall r with hidle | ⟨d, hd, hmem⟩
    · rw [place_of_not_waiting (by rw [hidle]; exact fun _ => nofun), hidle] at hr
      exact hr
    · rw [place_asleep hd hmem] at hr
      cases hr.2
  have havailable := hle ⟨p, hasleep⟩
  have hsize := hwake.size_nonneg
  have hroom := hwake.size_le
  have hcapacity := hwake.capacity_eq
  rw [blocked_iff]
  rw [hzero] at havailable
  cases hd : c.waitsFor <;> rw [hd] at havailable <;> simp only [Cond.available] at havailable ⊢ <;>
    omega

/-- With the mutex free the counter counts what was put and not got, and the sizes are the
ones of the creation. -/
theorem size_of_free (d : Shape) (hs : (channel π d.elemSize d.capacity).Reachable s)
    (hfree : s.monitor.holder = none) :
    s.rb.size + s.gets.length = s.puts.length ∧ s.rb.capacity = d.capacity ∧
      s.rb.elemSize = d.elemSize := by
  obtain ⟨f, hf, h⟩ := (simulation π d).reachable hs
  have hhistory := (BoundedFifo.delivering hf).history
  have hrep := h.represents
  rw [State.settled_free hfree] at hrep
  have hlength := congrArg List.length hhistory
  rw [h.entered, h.left, List.length_append, List.length_map, List.length_map] at hlength
  have hsize := hrep.size_eq
  exact ⟨by omega, hrep.capacity_eq, hrep.elemSize_eq⟩

/-- No more is got than was put. -/
theorem gets_le_puts (d : Shape) (hs : (channel π d.elemSize d.capacity).Reachable s) :
    s.gets.length ≤ s.puts.length := by
  obtain ⟨f, hf, h⟩ := (simulation π d).reachable hs
  have hlength := congrArg List.length (BoundedFifo.delivering hf).history
  rw [h.entered, h.left, List.length_append, List.length_map, List.length_map] at hlength
  omega

/-- Falling asleep and waking count for two statements. -/
theorem callLeft_same_pc (hpc : t.pc p = s.pc p) :
    callLeft (t.place p) ≤ callLeft (s.place p) + 2 := by
  simp only [State.place, hpc]
  cases s.pc p with
  | waiting c =>
    simp only [callLeft]
    split <;> split <;> omega
  | _ => simp [callLeft]

/-- A statement of another process leaves a process where it is, unless it wakes it. -/
theorem next_other {a : Action π} (hnext : s.next (p, a) = some t) {q : π} (hq : q ≠ p) :
    t.pc q = s.pc q ∧
      (a ≠ .signal (some q) → ∀ c, q ∈ t.monitor.asleep c ↔ q ∈ s.monitor.asleep c) := by
  have hexecuted := next_executed hnext
  have hmoved : ∀ (u : State π) (x : Pc), (u.goto p x).pc q = u.pc q :=
    fun u x => Function.update_of_ne hq _ _
  generalize hpc : s.pc p = old at hexecuted
  cases hexecuted with
  | called c | locked c | passed c | relocked c | advanced c | wrapped c | counted c | unlocked c =>
    exact ⟨hmoved _ _, fun _ _ => Iff.rfl⟩
  | copied c =>
    refine ⟨(hmoved _ _).trans ?_, fun _ _ => ?_⟩ <;> cases c <;> rfl
  | slept c =>
    refine ⟨hmoved _ _, fun _ d => ?_⟩
    rcases eq_or_ne d c.waitsFor with rfl | hd
    · simp [State.goto, hq]
    · simp [State.goto, hd]
  | woken c =>
    refine ⟨rfl, fun _ d => ?_⟩
    rcases eq_or_ne d c.waitsFor with rfl | hd
    · simp [hq]
    · simp [hd]
  | signaled c w m hm =>
    refine ⟨hmoved _ _, fun ha d => ?_⟩
    cases a with
    | call | run | wake => simp [State.next, State.run, hpc] at hnext
    | signal w' =>
      simp only [State.next, hpc] at hnext
      obtain ⟨m', hm', hsame⟩ := Option.map_eq_some_iff.mp hnext
      obtain rfl : m' = m := congrArg State.monitor hsame
      have hw : w' ≠ some q := fun he => ha (congrArg Action.signal he)
      cases w' with
      | none =>
        simp only [Monitor.signal, Option.ite_none_right_eq_some, Option.some.injEq] at hm'
        rw [← hm'.2]
        rfl
      | some r =>
        have hqr : q ≠ r := fun he => hw (by rw [he])
        simp only [Monitor.signal, Option.ite_none_right_eq_some, Option.some.injEq] at hm'
        rw [← hm'.2]
        rcases eq_or_ne d c.signals with rfl | hd
        · simp [State.goto, hqr]
        · simp [State.goto, hd]

/-- So another process that is not woken has as much left of its call as before. -/
theorem place_other {a : Action π} (hnext : s.next (p, a) = some t) {q : π} (hq : q ≠ p)
    (ha : a ≠ .signal (some q)) : t.place q = s.place q := by
  obtain ⟨hpc, hasleep⟩ := next_other hnext hq
  simp only [State.place, hpc, hasleep ha]

/-- Where the process of an action stands after it. -/
theorem goto_self (u : State π) (q : Pc) : (u.goto p q).pc p = q := Function.update_self _ _ _

/-- A process that has not to signal gets on with its call, unless it wakes for no reason. -/
theorem callLeft_own {a : Action π} (hnext : s.next (p, a) = some t) (ha : ∀ w, a ≠ .signal w)
    (hwake : a ≠ .wake) : callLeft (t.place p) < callLeft (s.place p) := by
  have hexecuted := next_executed hnext
  generalize hpc : s.pc p = old at hexecuted
  cases hexecuted with
  | called c | locked c | passed c | copied c | advanced c | wrapped c | counted c | unlocked c =>
    simp [State.place, goto_self, hpc, callLeft]
  | slept c hblocked hheld => simp [State.place, State.goto, hpc, callLeft]
  | relocked c hawake => simp [State.place, goto_self, hpc, hawake, callLeft]
  | woken c hasleep =>
    cases a with
    | call => simp [State.next, hpc] at hnext
    | run => simp [State.next, State.run, hpc, Monitor.relock, hasleep] at hnext
    | signal w => exact absurd rfl (ha w)
    | wake => exact absurd rfl hwake
  | signaled c w m hm =>
    cases a with
    | call | run | wake => simp [State.next, State.run, hpc] at hnext
    | signal w => exact absurd rfl (ha w)

/-- A process that wakes for no reason stays in its call. -/
theorem wake_pc (hnext : s.next (p, .wake) = some t) : t.pc = s.pc := by
  simp only [State.next] at hnext
  split at hnext
  · obtain ⟨m, -, rfl⟩ := Option.map_eq_some_iff.mp hnext
    rfl
  · cases hnext

end SistemasOperativos.MutexChannel
