import SistemasOperativos.Races

/-!
# The rounds of the threads that count under a lock

Somebody can always go on, and every statement takes something off the work that
is left of a round. So rounds come to an end, and at the end of each of them the
assertion holds, whether the lock is a semaphore or a mutex.
-/

namespace SistemasOperativos.Races

open TransitionRuns ExclusiveLock MachineInt Census

variable {n niters : ℕ} {σ : Type*} {Shows : σ → Option (Fin n) → Prop} {s t : State σ n}
  {L : Lock σ (Fin n)} {i : Fin n}

section Work

/-- Statements up to the return of `oper_func`: six for each iteration, and the last test. -/
def ThreadPc.left (niters : ℕ) : ThreadPc → ℕ
  | .testing k => 6 * (niters - k) + 1
  | .acquiring k => 6 * (niters - k)
  | .loading k => 6 * (niters - k) - 1
  | .adding k _ => 6 * (niters - k) - 2
  | .storing k _ => 6 * (niters - k) - 3
  | .releasing k => 6 * (niters - k) - 4
  | .absent | .returned => 0

/-- Statements of `main` up to the end of the round. -/
def MainPc.left (n : ℕ) : MainPc → ℕ
  | .zeroing => 2 * n + 4
  | .creating i => (n - i) + n + 3
  | .joining i => (n - i) + 2
  | .asserting => 1
  | .aborted => 0

/-- The statements that are left to a thread in this round. -/
def State.left (niters : ℕ) (s : State σ n) (i : Fin n) : ℕ :=
  if s.main.Created i then (s.thread i).left niters else 6 * niters + 1

/-- The work that is left in this round. -/
def workLeft (niters : ℕ) (s : State σ n) : ℕ := s.main.left n + ∑ i, s.left niters i

/-- The work of a whole round. -/
def roundWork (n niters : ℕ) : ℕ := n * (6 * niters + 3) + 4

/-- A statement takes its thread on, and no other one. -/
theorem runThread_left (hwithin : (s.thread i).Within niters)
    (hrun : s.runThread L niters i = some t) :
    t.main = s.main ∧ t.rounds = s.rounds ∧ s.thread i ≠ .absent ∧ s.thread i ≠ .returned ∧
      ∃ q, q.left niters < (s.thread i).left niters ∧ t.thread = Function.update s.thread i q := by
  unfold State.runThread at hrun
  cases hpc : s.thread i with
  | testing k =>
    simp only [hpc, Option.some.injEq] at hrun
    subst hrun
    refine ⟨rfl, rfl, ThreadPc.noConfusion, ThreadPc.noConfusion, _, ?_, rfl⟩
    split
    · simp only [ThreadPc.left]
      omega
    · exact Nat.succ_pos _
  | acquiring k | releasing k =>
    simp only [hpc] at hrun
    obtain ⟨m, -, rfl⟩ := Option.map_eq_some_iff.mp hrun
    rw [hpc] at hwithin
    have hless : k < niters := hwithin
    refine ⟨rfl, rfl, ThreadPc.noConfusion, ThreadPc.noConfusion, _, ?_, rfl⟩
    simp only [ThreadPc.left]
    omega
  | loading k | adding k aux | storing k aux =>
    simp only [hpc, Option.some.injEq] at hrun
    subst hrun
    rw [hpc] at hwithin
    have hless : k < niters := hwithin
    refine ⟨rfl, rfl, ThreadPc.noConfusion, ThreadPc.noConfusion, _, ?_, rfl⟩
    simp only [ThreadPc.left]
    omega
  | absent | returned =>
    simp only [hpc] at hrun
    cases hrun

/-- A thread that is in `oper_func` was created in this round. -/
theorem Inv.made (h : Inv Shows niters s) (habsent : s.thread i ≠ .absent)
    (hreturned : s.thread i ≠ .returned) : s.main.Created i := by
  by_contra hnot
  rcases h.idle i hnot with hpc | hpc
  · exact habsent hpc
  · exact hreturned hpc

/-- A statement of a thread takes something off. -/
theorem Inv.runThread_work (h : Inv Shows niters s) (hrun : s.runThread L niters i = some t) :
    workLeft niters t < workLeft niters s := by
  obtain ⟨hmain, -, habsent, hreturned, q, hless, hmoved⟩ := runThread_left (h.within i) hrun
  have hmade := h.made habsent hreturned
  have hsum : (∑ j, t.left niters j) < ∑ j, s.left niters j := by
    refine sum_lt_of_moved i ?_ fun j hj => ?_
    · rw [State.left, State.left, hmain, if_pos hmade, if_pos hmade, hmoved, Function.update_self]
      exact hless
    · rw [State.left, State.left, hmain, hmoved, Function.update_of_ne hj]
  rw [workLeft, workLeft, hmain]
  omega

/-- `main` goes on inside a round, and no thread has more left. -/
theorem workLeft_main (hless : t.main.left n < s.main.left n)
    (hthreads : ∀ i, t.left niters i ≤ s.left niters i) :
    workLeft niters t < workLeft niters s := by
  have hsum : (∑ i, t.left niters i) ≤ ∑ i, s.left niters i :=
    Finset.sum_le_sum fun i _ => hthreads i
  simp only [workLeft]
  omega

/-- Before a round starts, all of its work is left. -/
theorem workLeft_zeroing (hmain : s.main = .zeroing) : workLeft niters s = roundWork n niters := by
  have hall : ∀ i, s.left niters i = 6 * niters + 1 := fun i => by
    rw [State.left, hmain]
    exact if_neg id
  simp only [workLeft, hall, hmain, Finset.sum_const, Finset.card_univ, Fintype.card_fin,
    smul_eq_mul, MainPc.left, roundWork]
  ring

/-- A statement of `main` takes something off, and a round that is over gives a round back. -/
theorem Inv.runMain_work (h : Inv Shows niters s) (hrun : s.runMain niters = some t) :
    workLeft niters t + roundWork n niters * s.rounds <
      workLeft niters s + roundWork n niters * t.rounds := by
  unfold State.runMain at hrun
  cases hmain : s.main with
  | zeroing =>
    simp only [hmain, Option.some.injEq] at hrun
    subst hrun
    refine Nat.add_lt_add_right (workLeft_main ?_ fun j => ?_) _
    · simp only [hmain, MainPc.left]
      omega
    · simp only [State.left, hmain]
      exact Nat.le_refl _
  | creating k =>
    simp only [hmain] at hrun
    split at hrun
    next hk =>
      cases hrun
      refine Nat.add_lt_add_right (workLeft_main ?_ fun j => ?_) _
      · simp only [hmain, State.goto, MainPc.left]
        omega
      · rcases eq_or_ne j ⟨k, hk⟩ with rfl | hne
        · simp [State.left, State.goto, hmain, MainPc.Created, ThreadPc.left]
        · have hval : j.val ≠ k := fun he => hne (Fin.ext he)
          have hsame : j.val < k + 1 ↔ j.val < k := by omega
          simp [State.left, State.goto, hmain, MainPc.Created, hne, hsame]
    next hk =>
      cases hrun
      refine Nat.add_lt_add_right (workLeft_main ?_ fun j => ?_) _
      · simp only [hmain, MainPc.left]
        omega
      · have hless : j.val < k := by omega
        simp [State.left, hmain, MainPc.Created, hless]
  | joining k =>
    simp only [hmain] at hrun
    split at hrun
    next hk =>
      obtain ⟨-, hnext⟩ := Option.ite_none_right_eq_some.mp hrun
      cases hnext
      refine Nat.add_lt_add_right (workLeft_main ?_ fun j => ?_) _
      · simp only [hmain, MainPc.left]
        omega
      · simp [State.left, hmain, MainPc.Created]
    next hk =>
      cases hrun
      refine Nat.add_lt_add_right (workLeft_main ?_ fun j => ?_) _
      · simp only [hmain, MainPc.left]
        omega
      · simp [State.left, hmain, MainPc.Created]
  | asserting =>
    simp only [hmain, if_pos (h.total_eq hmain), Option.some.injEq] at hrun
    subst hrun
    have hpos : 0 < workLeft niters s := by
      rw [workLeft, hmain]
      exact Nat.add_pos_left Nat.zero_lt_one _
    rw [workLeft_zeroing rfl, Nat.mul_succ]
    omega
  | aborted =>
    simp only [hmain] at hrun
    cases hrun

/-- Every step takes something off, and a round that is over gives a round back. -/
theorem Inv.next_work (h : Inv Shows niters s) {a : Action n} (hnext : s.next L niters a = some t) :
    workLeft niters t + roundWork n niters * s.rounds <
      workLeft niters s + roundWork n niters * t.rounds := by
  cases a with
  | main => exact h.runMain_work hnext
  | thread i =>
    rw [(runThread_left (h.within i) hnext).2.1]
    exact Nat.add_lt_add_right (h.runThread_work hnext) _

/-- A run makes no more statements than the rounds that it began have. -/
theorem length_le_rounds (hL : Excludes L Shows) {trace : List (Transition (State σ n) (Action n))}
    (hrun : (program L niters).Run (initial L) trace t) :
    trace.length + workLeft niters t ≤ roundWork n niters * (t.rounds + 1) := by
  induction hrun with
  | nil =>
    rw [workLeft_zeroing rfl, Nat.mul_add, Nat.mul_one, List.length_nil, Nat.zero_add]
    exact Nat.le_add_left _ _
  | snoc hbefore hstep ih =>
    have hI := inv_reachable hL (hbefore.reachable (.start rfl))
    have hless := hI.next_work hstep
    rw [Nat.mul_add, Nat.mul_one] at ih ⊢
    rw [List.length_append, List.length_singleton]
    omega

end Work

section Progress

/-- Who is inside can go on. -/
theorem Inv.inside_enabled (h : Inv Shows niters s) (hL : Excludes L Shows)
    (hin : (s.thread i).Inside) : ∃ u, s.runThread L niters i = some u := by
  obtain ⟨o, hshows, howner⟩ := h.owner
  obtain rfl := (howner i).mp hin
  unfold State.runThread
  cases hpc : s.thread i with
  | loading k | adding k aux | storing k aux => exact ⟨_, rfl⟩
  | releasing k =>
    obtain ⟨m, hm, -⟩ := hL.release hshows
    simp only [hm]
    exact ⟨_, rfl⟩
  | absent | testing k | acquiring k | returned =>
    rw [hpc] at hin
    exact hin.elim

/-- While a thread is in `oper_func`, some thread can go on. -/
theorem Inv.thread_enabled (h : Inv Shows niters s) (hL : Excludes L Shows)
    (habsent : s.thread i ≠ .absent) (hreturned : s.thread i ≠ .returned) :
    ∃ j u, s.runThread L niters j = some u := by
  cases hpc : s.thread i with
  | absent => exact absurd hpc habsent
  | returned => exact absurd hpc hreturned
  | testing k => exact ⟨i, _, by rw [State.runThread, hpc]⟩
  | acquiring k =>
    obtain ⟨o, hshows, howner⟩ := h.owner
    cases o with
    | none =>
      obtain ⟨m, hm⟩ := hL.free i hshows
      refine ⟨i, { s with lock := m }.goto i (.loading k), ?_⟩
      rw [State.runThread, hpc]
      simp only [hm, Option.map_some]
    | some j => exact ⟨j, h.inside_enabled hL ((howner j).mpr rfl)⟩
  | loading k | adding k aux | storing k aux | releasing k =>
    exact ⟨i, h.inside_enabled hL (by rw [hpc]; trivial)⟩

/-- Somebody can always go on. -/
theorem Inv.enabled (h : Inv Shows niters s) (hL : Excludes L Shows) :
    ∃ a u, s.next L niters a = some u := by
  cases hmain : s.main with
  | zeroing | asserting => exact ⟨.main, _, by rw [State.next, State.runMain, hmain]⟩
  | creating k =>
    refine ⟨.main, ?_⟩
    simp only [State.next, State.runMain, hmain]
    split <;> exact ⟨_, rfl⟩
  | joining k =>
    by_cases hwaits : ∃ hk : k < n, s.thread ⟨k, hk⟩ ≠ .returned
    · obtain ⟨hk, hreturned⟩ := hwaits
      have habsent := h.created ⟨k, hk⟩ (by rw [hmain]; trivial)
      obtain ⟨j, u, hu⟩ := h.thread_enabled hL habsent hreturned
      exact ⟨.thread j, u, hu⟩
    · refine ⟨.main, ?_⟩
      simp only [State.next, State.runMain, hmain]
      split
      next hk =>
        rw [if_pos (not_not.mp fun hreturned => hwaits ⟨hk, hreturned⟩)]
        exact ⟨_, rfl⟩
      next => exact ⟨_, rfl⟩
  | aborted => exact absurd hmain h.holds

end Progress

/-- What the program promises with a lock. -/
structure Counts (L : Lock σ (Fin n)) (niters : ℕ) : Prop where
  /-- One thread at a time works on the counter. -/
  alone : ∀ s, (program L niters).Reachable s → ∀ i j, (s.thread i).Inside →
    (s.thread j).Inside → j = i
  /-- The counter has every iteration that was written back. -/
  counted : ∀ s, (program L niters).Reachable s → s.main ≠ .zeroing →
    s.total = int32 (∑ i, s.counted niters i : ℕ)
  /-- The assertion never fails. -/
  asserted : ∀ s, (program L niters).Reachable s → s.main ≠ .aborted ∧
    (s.main = .asserting → s.total = int32 (niters * n))
  /-- Somebody can always go on. -/
  enabled : ∀ s, (program L niters).Reachable s → ∃ a t, s.next L niters a = some t
  /-- Rounds come to an end, however the threads take turns. -/
  rounds : ∀ trace t, (program L niters).Run (initial L) trace t →
    trace.length ≤ roundWork n niters * (t.rounds + 1)

/-- A lock that lets one thread in at a time is enough. -/
theorem counts_of_excludes (hL : Excludes L Shows) : Counts L niters where
  alone _ hs _ _ hi hj := (inv_reachable hL hs).alone hi hj
  counted _ hs := (inv_reachable hL hs).counts
  asserted _ hs := ⟨(inv_reachable hL hs).holds, (inv_reachable hL hs).total_eq⟩
  enabled _ hs := (inv_reachable hL hs).enabled hL
  rounds _ _ hrun := (Nat.le_add_right _ _).trans (length_le_rounds hL hrun)

/-- Both versions of the program count every iteration of every thread in each round, with
any number of threads and iterations. -/
theorem races_count_every_iteration (n niters : ℕ) :
    Counts (semaphore (Fin n) 1) niters ∧ Counts (mutex (Fin n)) niters :=
  ⟨counts_of_excludes semaphore_excludes, counts_of_excludes mutex_excludes⟩

end SistemasOperativos.Races
