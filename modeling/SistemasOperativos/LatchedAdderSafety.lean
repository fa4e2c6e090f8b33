import SistemasOperativos.LatchedAdder

/-!
# The frame of the parallel sum outlives its users

The call refines the latch, so behind the wait every item is back in its worker.
By then each range holds its final sum, and nobody uses the latch or a range
while the frame goes away.
-/

namespace SistemasOperativos.LatchedAdder

open TransitionRuns ConditionMonitor
open ParAdder (Range sumOn sumOn_self sumOn_succ)

variable {n : ℕ} {vals : List ℤ} {s t : State n} {i : Fin n}

/-- Number of elements in a range. -/
def rangeSize (vals : List ℤ) (n : ℕ) : ℕ := vals.length / n

/-- The sum of the range of an item. -/
def rangeSum (vals : List ℤ) (n i : ℕ) : ℤ :=
  sumOn vals (i * rangeSize vals n) ((i + 1) * rangeSize vals n)

/-- The range of an item. -/
structure RangeOf (vals : List ℤ) (n i : ℕ) (r : Range) : Prop where
  start_eq : r.start = i * rangeSize vals n
  stop_eq : r.stop = (i + 1) * rangeSize vals n

/-- The end of a range is never cut off. -/
theorem rangeFrom_spec (vals : List ℤ) (i : Fin n) :
    RangeOf vals n i (rangeFrom n vals.length (i * rangeSize vals n)) := by
  have hle : n * rangeSize vals n ≤ vals.length := Nat.mul_div_le vals.length n
  have hmul : (i + 1) * rangeSize vals n ≤ n * rangeSize vals n := Nat.mul_le_mul_right _ i.isLt
  rw [Nat.succ_mul] at hmul
  constructor
  · rfl
  · rw [rangeFrom, Nat.succ_mul]
    exact if_neg (by rw [← rangeSize]; omega)

/-- What an item has made of its range. -/
def ItemOk (vals : List ℤ) (n i : ℕ) (r : Range) : ItemPc → Prop
  | .absent => True
  | .queued => RangeOf vals n i r
  | .summing curr partialSum =>
    RangeOf vals n i r ∧ r.start ≤ curr ∧ curr ≤ r.stop ∧ partialSum = sumOn vals r.start curr
  | .storing partialSum => RangeOf vals n i r ∧ partialSum = rangeSum vals n i
  | .locking | .decrementing | .broadcasting | .unlocking | .finished =>
    RangeOf vals n i r ∧ r.count = rangeSum vals n i

/-- Only one item moves. -/
structure Moved (s : State n) (i : Fin n) (t : State n) : Prop where
  submitted : s.item i ≠ .absent
  caller : t.caller = s.caller
  item : ∀ j, j ≠ i → t.item j = s.item j
  range : ∀ j, j ≠ i → t.ranges j = s.ranges j

/-- A submitted item that moves to another place and leaves the ranges alone. -/
theorem Moved.goto {q : ItemPc} (hbefore : s.item i ≠ .absent) (hcaller : t.caller = s.caller)
    (hitem : t.item = Function.update s.item i q) (hranges : t.ranges = s.ranges) : Moved s i t where
  submitted := hbefore
  caller := hcaller
  item j hj := by rw [hitem, Function.update_of_ne hj]
  range j _ := by rw [hranges]

/-- It is in order when its new place is. -/
theorem Moved.ok {q : ItemPc} (hbefore : s.item i ≠ .absent) (hcaller : t.caller = s.caller)
    (hitem : t.item = Function.update s.item i q) (hranges : t.ranges = s.ranges)
    (hq : ItemOk vals n i (s.ranges i) q) :
    Moved s i t ∧ ItemOk vals n i (t.ranges i) (t.item i) := by
  refine ⟨.goto hbefore hcaller hitem hranges, ?_⟩
  rw [hitem, hranges, Function.update_self]
  exact hq

/-- Every statement of an item moves that item only, and keeps to its range. -/
theorem runItem_spec (hok : ItemOk vals n i (s.ranges i) (s.item i))
    (hrun : s.runItem vals i = some t) :
    Moved s i t ∧ ItemOk vals n i (t.ranges i) (t.item i) := by
  unfold State.runItem at hrun
  cases hpc : s.item i with
  | absent | finished =>
    simp only [hpc] at hrun
    cases hrun
  | queued =>
    rw [hpc] at hok
    simp only [hpc, Option.some.injEq] at hrun
    subst hrun
    have hrange : RangeOf vals n i (s.ranges i) := hok
    refine Moved.ok (by rw [hpc]; nofun) rfl rfl rfl ?_
    refine ⟨hrange, Nat.le_refl _, ?_, (sumOn_self _ _).symm⟩
    rw [hrange.start_eq, hrange.stop_eq]
    exact Nat.mul_le_mul_right _ (Nat.le_succ _)
  | summing curr partialSum =>
    rw [hpc] at hok
    simp only [hpc] at hrun
    obtain ⟨hrange, hlo, hhi, hsum⟩ := hok
    split at hrun
    · next hlt =>
      obtain ⟨v, hv, rfl⟩ := Option.map_eq_some_iff.mp hrun
      refine Moved.ok (by rw [hpc]; nofun) rfl rfl rfl ?_
      refine ⟨hrange, by omega, hlt, ?_⟩
      rw [sumOn_succ hlo, hsum, List.getD_eq_getElem?_getD, hv, Option.getD_some]
    · next hge =>
      cases hrun
      have hend : curr = (s.ranges i).stop := by omega
      refine Moved.ok (by rw [hpc]; nofun) rfl rfl rfl ?_
      refine ⟨hrange, ?_⟩
      rw [hsum, hend, hrange.start_eq, hrange.stop_eq, rangeSum]
  | storing partialSum =>
    rw [hpc] at hok
    simp only [hpc, Option.some.injEq] at hrun
    subst hrun
    obtain ⟨hrange, hsum⟩ := hok
    refine ⟨⟨by rw [hpc]; nofun, rfl, fun j hj => Function.update_of_ne hj _ _,
      fun j hj => Function.update_of_ne hj _ _⟩, ?_⟩
    show ItemOk vals n i (Function.update s.ranges i _ i) (Function.update s.item i _ i)
    rw [Function.update_self, Function.update_self]
    exact ⟨⟨hrange.start_eq, hrange.stop_eq⟩, hsum⟩
  | locking | unlocking =>
    rw [hpc] at hok
    simp only [hpc] at hrun
    obtain ⟨m, -, rfl⟩ := Option.map_eq_some_iff.mp hrun
    exact Moved.ok (by rw [hpc]; nofun) rfl rfl rfl hok
  | decrementing =>
    rw [hpc] at hok
    simp only [hpc, Option.some.injEq] at hrun
    subst hrun
    refine Moved.ok (by rw [hpc]; nofun) rfl rfl rfl ?_
    split
    · exact hok
    · exact hok
  | broadcasting =>
    rw [hpc] at hok
    simp only [hpc, Option.some.injEq] at hrun
    subst hrun
    exact Moved.ok (by rw [hpc]; nofun) rfl rfl rfl hok

/-- How far the submission has come. -/
structure Submission (vals : List ℤ) (s : State n) : Prop where
  items : ∀ i : Fin n, ItemOk vals n i (s.ranges i) (s.item i)
  filling : ∀ k curr, s.caller = .filling k curr →
    curr = k * rangeSize vals n ∧ ∀ i : Fin n, k ≤ i → s.item i = .absent

/-- A statement of an item keeps the submission as it is. -/
theorem Submission.runItem (h : Submission vals s) (hrun : s.runItem vals i = some t) :
    Submission vals t := by
  obtain ⟨hmoved, hok⟩ := runItem_spec (h.items i) hrun
  constructor
  · intro j
    rcases eq_or_ne j i with rfl | hj
    · exact hok
    · rw [hmoved.item j hj, hmoved.range j hj]
      exact h.items j
  · intro k curr hfilling
    rw [hmoved.caller] at hfilling
    obtain ⟨hcurr, habsent⟩ := h.filling k curr hfilling
    refine ⟨hcurr, fun j hj => ?_⟩
    have hne : j ≠ i := fun he => hmoved.submitted (he ▸ habsent j hj)
    rw [hmoved.item j hne, habsent j hj]

/-- The caller behind the submission loop leaves items and ranges as they are. -/
theorem Submission.behind (h : Submission vals s) (hitem : t.item = s.item)
    (hranges : t.ranges = s.ranges) (hpast : ∀ k curr, t.caller ≠ .filling k curr) :
    Submission vals t where
  items := by
    rw [hitem, hranges]
    exact h.items
  filling k curr hfilling := absurd hfilling (hpast k curr)

/-- The caller submits the next item. -/
theorem Submission.submit (h : Submission vals s) {k curr : ℕ} (hpc : s.caller = .filling k curr)
    (hk : k < n) : Submission vals (s.submit vals.length ⟨k, hk⟩ curr) := by
  obtain ⟨hcurr, habsent⟩ := h.filling k curr hpc
  constructor
  · intro j
    show ItemOk vals n j (Function.update s.ranges _ _ j) (Function.update s.item _ _ j)
    rcases eq_or_ne j ⟨k, hk⟩ with rfl | hj
    · rw [Function.update_self, Function.update_self, hcurr]
      exact rangeFrom_spec vals ⟨k, hk⟩
    · rw [Function.update_of_ne hj, Function.update_of_ne hj]
      exact h.items j
  · intro k' curr' hfilling
    cases hfilling
    refine ⟨?_, fun j hj => ?_⟩
    · rw [hcurr, Nat.succ_mul]
      rfl
    · have hj' : k + 1 ≤ (j : ℕ) := hj
      have hne : j ≠ ⟨k, hk⟩ := fun he => by
        rw [he] at hj'
        exact Nat.not_succ_le_self k hj'
      show Function.update s.item _ _ j = _
      rw [Function.update_of_ne hne]
      exact habsent j (by omega)

/-- Every statement of the caller keeps track of the submission. -/
theorem Submission.runCaller (h : Submission vals s) (hrun : s.runCaller vals.length = some t) :
    Submission vals t := by
  unfold State.runCaller at hrun
  cases hpc : s.caller with
  | filling k curr =>
    simp only [hpc] at hrun
    split at hrun
    · next hk =>
      cases hrun
      exact h.submit hpc hk
    · cases hrun
      exact h.behind rfl rfl nofun
  | locking | waiting | unlocking =>
    simp only [hpc] at hrun
    obtain ⟨m, -, rfl⟩ := Option.map_eq_some_iff.mp hrun
    exact h.behind rfl rfl nofun
  | checking =>
    simp only [hpc] at hrun
    split at hrun
    · obtain ⟨m, -, rfl⟩ := Option.map_eq_some_iff.mp hrun
      exact h.behind rfl rfl nofun
    · cases hrun
      exact h.behind rfl rfl nofun
  | collecting k total =>
    simp only [hpc] at hrun
    split at hrun
    · cases hrun
      exact h.behind rfl rfl nofun
    · cases hrun
      exact h.behind rfl rfl nofun
  | mutexDestroying total | condDestroying total =>
    simp only [hpc, Option.some.injEq] at hrun
    subst hrun
    exact h.behind rfl rfl nofun
  | returned total =>
    simp only [hpc] at hrun
    cases hrun

/-- The submission in every reachable state of a call. -/
theorem submission_reachable (hs : (parAdder n vals).Reachable s) : Submission vals s := by
  refine System.Reachable.invariant (I := Submission vals) ?_ ?_ hs
  · rintro s ⟨ranges, rfl⟩
    constructor
    · exact fun _ => trivial
    · intro k curr hfilling
      cases hfilling
      exact ⟨(Nat.zero_mul _).symm, fun _ _ => rfl⟩
  · rintro s a t - hI hstep
    have hnext : s.next vals a = some t := hstep
    match a with
    | .runCaller => exact hI.runCaller hnext
    | .runItem i => exact hI.runItem hnext
    | .wake =>
      obtain ⟨m, -, rfl⟩ := Option.map_eq_some_iff.mp hnext
      exact ⟨hI.items, hI.filling⟩

/-- The call refines the latch: what it does with it is what a latch does. -/
theorem latch_simulation (n : ℕ) (vals : List ℤ) :
    Simulation (parAdder n vals) (CountdownLatch.latch Unit (Fin n)) fun s l => l = s.latch where
  init := by
    rintro s ⟨ranges, rfl⟩
    refine ⟨_, rfl, ?_⟩
    rw [CountdownLatch.initial, Fintype.card_fin]
    rfl
  step := by
    rintro s a t l hs rfl hstep
    refine ⟨t.latch, ?_, rfl⟩
    have hmatch : t.latch = s.latch ∨ ∃ b, s.latch.next b = some t.latch := by
      have hnext : s.next vals a = some t := hstep
      cases a with
      | runCaller =>
        exact (latch_runCaller hnext fun k curr hpc hk =>
          ((submission_reachable hs).filling k curr hpc).2 _ (Nat.le_refl k)).imp_right
            fun h => ⟨.run (.waiter ()), h⟩
      | runItem i => exact (latch_runItem hnext).imp_right fun h => ⟨.run (.signaller i), h⟩
      | wake =>
        obtain ⟨m, hm, rfl⟩ := Option.map_eq_some_iff.mp hnext
        exact .inr ⟨.wake (), Option.map_eq_some_iff.mpr ⟨m, hm, rfl⟩⟩
    rcases hmatch with hsame | hone
    · rw [hsame]
      exact Relation.ReflTransGen.refl
    · exact Relation.ReflTransGen.single hone

/-- The latch of a reachable call is a reachable latch. -/
theorem latch_reachable (hs : (parAdder n vals).Reachable s) :
    (CountdownLatch.latch Unit (Fin n)).Reachable s.latch := by
  obtain ⟨l, hl, rfl⟩ := (latch_simulation n vals).reachable hs
  exact hl

/-- Behind the latch every item is back in its worker and has stored its sum. -/
theorem stored_of_after (hs : (parAdder n vals).Reachable s)
    (hafter : s.caller.atLatch = .after) (i : Fin n) :
    s.item i = .finished ∧ (s.ranges i).count = rangeSum vals n i := by
  have hpassed : (s.latch.waiter ()).passed = true := by
    show s.caller.atLatch.passed = true
    rw [hafter]
    rfl
  have hat : (s.item i).atLatch = .finished :=
    CountdownLatch.finished_of_passed (latch_reachable hs) hpassed i
  have hok := (submission_reachable hs).items i
  cases hpc : s.item i with
  | finished =>
    rw [hpc] at hok
    exact ⟨rfl, hok.2⟩
  | _ =>
    rw [hpc] at hat
    cases hat

/-- What the caller has added up. -/
def Collected (vals : List ℤ) (s : State n) : Prop :=
  match s.caller with
  | .collecting k total => k ≤ n ∧ total = ∑ i ∈ Finset.range k, rangeSum vals n i
  | .mutexDestroying total | .condDestroying total | .returned total =>
    total = ∑ i ∈ Finset.range n, rangeSum vals n i
  | _ => True

/-- A statement of the caller adds the sum of one range at most. -/
theorem Collected.runCaller (hs : (parAdder n vals).Reachable s) (h : Collected vals s)
    (hrun : s.runCaller vals.length = some t) : Collected vals t := by
  have hcount := stored_of_after hs
  unfold State.runCaller at hrun
  unfold Collected at h
  cases hpc : s.caller with
  | filling k curr =>
    simp only [hpc] at hrun
    split at hrun
    · cases hrun
      trivial
    · cases hrun
      trivial
  | locking | waiting =>
    simp only [hpc] at hrun
    obtain ⟨m, -, rfl⟩ := Option.map_eq_some_iff.mp hrun
    trivial
  | checking =>
    simp only [hpc] at hrun
    split at hrun
    · obtain ⟨m, -, rfl⟩ := Option.map_eq_some_iff.mp hrun
      trivial
    · cases hrun
      trivial
  | unlocking =>
    simp only [hpc] at hrun
    obtain ⟨m, -, rfl⟩ := Option.map_eq_some_iff.mp hrun
    exact ⟨Nat.zero_le n, (Finset.sum_range_zero _).symm⟩
  | collecting k total =>
    rw [hpc] at h hcount
    simp only [hpc] at hrun
    obtain ⟨hle, hsum⟩ := h
    split at hrun
    · next hk =>
      cases hrun
      refine ⟨hk, ?_⟩
      rw [Finset.sum_range_succ, ← hsum, (hcount rfl ⟨k, hk⟩).2]
    · next hk =>
      cases hrun
      have hend : k = n := by omega
      rw [hend] at hsum
      exact hsum
  | mutexDestroying total | condDestroying total =>
    rw [hpc] at h
    simp only [hpc, Option.some.injEq] at hrun
    subst hrun
    exact h
  | returned total =>
    simp only [hpc] at hrun
    cases hrun

/-- The sums of the caller in every reachable state of a call. -/
theorem collected_reachable (hs : (parAdder n vals).Reachable s) : Collected vals s := by
  refine System.Reachable.invariant (I := Collected vals) ?_ ?_ hs
  · rintro s ⟨ranges, rfl⟩
    trivial
  · rintro s a t hr hI hstep
    have hnext : s.next vals a = some t := hstep
    match a with
    | .runCaller => exact hI.runCaller hr hnext
    | .runItem i =>
      have hmoved := (runItem_spec ((submission_reachable hr).items i) hnext).1
      unfold Collected
      rw [hmoved.caller]
      exact hI
    | .wake =>
      obtain ⟨m, -, rfl⟩ := Option.map_eq_some_iff.mp hnext
      exact hI

/-- Behind the wait all items have stored their final sums, which make up the
total; the caller never sleeps through the last count; and when the call has
returned no item has a step left. -/
theorem sum_complete_and_frame_unused (hs : (parAdder n vals).Reachable s) :
    (s.caller.atLatch = .after →
      ∀ i, s.item i = .finished ∧ (s.ranges i).count = rangeSum vals n i) ∧
    (∀ total, s.caller = .returned total → total = ∑ i ∈ Finset.range n, rangeSum vals n i) ∧
    (s.monitor.holder = none → s.counter = 0 → .waiter () ∉ s.monitor.asleep .done) ∧
    (∀ total, s.caller = .returned total → ∀ i, s.next vals (.runItem i) = none) := by
  refine ⟨stored_of_after hs, ?_,
    fun hfree hzero => CountdownLatch.awake_of_zero (latch_reachable hs) hfree hzero (), ?_⟩
  · intro total hreturned
    have hcollected := collected_reachable hs
    unfold Collected at hcollected
    rw [hreturned] at hcollected
    exact hcollected
  · intro total hreturned i
    have hfinished := (stored_of_after hs (by rw [hreturned]; rfl) i).1
    show s.runItem vals i = none
    unfold State.runItem
    rw [hfinished]

/-- Two items, the second of which is the last to signal. -/
theorem sum_complete_and_frame_unused_two : ∃ s : State 2,
    (parAdder 2 [3, 4]).Reachable s ∧ s.caller = .returned 7 ∧
      (7 = ∑ i ∈ Finset.range 2, rangeSum [3, 4] 2 i) ∧
      ∀ i, s.item i = .finished ∧ s.next [3, 4] (.runItem i) = none := by
  have hstart : (parAdder 2 [3, 4]).Reachable
      ⟨fun _ => ⟨0, 0, 0⟩, 2, .new, .filling 0 0, fun _ => .absent⟩ := .start ⟨_, rfl⟩
  obtain ⟨s, hs, hp⟩ := hstart.exists_of_any
    (.runCaller :: .runCaller :: .runCaller :: .runCaller :: .runCaller ::
      (List.replicate 7 (.runItem 0) ++ List.replicate 8 (.runItem 1) ++
        List.replicate 8 .runCaller))
    (p := fun s => s.caller = .returned 7) (by decide +kernel)
  have hreturned := of_decide_eq_true hp
  obtain ⟨hstored, htotal, -, hunused⟩ := sum_complete_and_frame_unused hs
  exact ⟨s, hs, hreturned, htotal 7 hreturned, fun i =>
    ⟨(hstored (by rw [hreturned]; rfl) i).1, hunused 7 hreturned i⟩⟩

end SistemasOperativos.LatchedAdder
