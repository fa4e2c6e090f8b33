import SistemasOperativos.ParAdderSum

/-!
# The parallel sum returns, and when it is the sequential sum

The holder of the latch's mutex can always go on, so a call that has not
returned has a next step that leaves less work. The value that it returns is
the sum of an array whose length the number of work items divides, and lacks
the last elements of every other array.
-/

namespace SistemasOperativos.ParAdder

open TransitionRuns ConditionMonitor

/-- Inside a critical section of the latch. -/
def State.Inside (s : State) : Party → Prop
  | .caller => s.caller = .checking ∨ s.caller = .unlocking
  | .item i => s.item i = .decrementing ∨ s.item i = .unlocking

/-- A step of the caller leaves the items where they are. -/
theorem inside_caller {s t : State} (hitem : t.item = s.item) :
    ∀ r, r ≠ .caller → (t.Inside r ↔ s.Inside r) := by
  intro r hr
  cases r with
  | caller => exact absurd rfl hr
  | item i => simp only [State.Inside, hitem]

/-- A step of an item leaves the caller and the other items where they are. -/
theorem inside_item {s t : State} {i : Fin nprocs} {q : ItemPc} (hcaller : t.caller = s.caller)
    (hitem : t.item = Function.update s.item i q) :
    ∀ r, r ≠ .item i → (t.Inside r ↔ s.Inside r) := by
  intro r hr
  cases r with
  | caller => simp only [State.Inside, hcaller]
  | item j =>
    have hj : j ≠ i := fun he => hr (he ▸ rfl)
    simp only [State.Inside, hitem, Function.update_of_ne hj]

/-- Every statement of an item keeps the mutex with the party inside. -/
theorem heldBy_runItem {vals : List ℤ} {s t : State} {i : Fin nprocs}
    (h : s.monitor.HeldBy s.Inside) (hrun : s.runItem vals i = some t) :
    t.monitor.HeldBy t.Inside := by
  unfold State.runItem at hrun
  cases hpc : s.item i <;> simp only [hpc] at hrun
  case queued =>
    cases hrun
    refine h.keep rfl ?_ (inside_item rfl rfl)
    simp [State.Inside, State.gotoItem, hpc]
  case summing =>
    split at hrun
    · obtain ⟨v, -, rfl⟩ := Option.map_eq_some_iff.mp hrun
      refine h.keep rfl ?_ (inside_item rfl rfl)
      simp [State.Inside, State.gotoItem, hpc]
    · cases hrun
      refine h.keep rfl ?_ (inside_item rfl rfl)
      simp [State.Inside, State.store, hpc]
  case locking =>
    obtain ⟨m, hm, rfl⟩ := Option.map_eq_some_iff.mp hrun
    obtain ⟨hfree, rfl⟩ := Monitor.lock_spec hm
    refine h.enter hfree rfl ?_ (inside_item rfl rfl)
    simp [State.Inside, State.gotoItem]
  case decrementing =>
    cases hrun
    refine h.keep ?_ ?_ (inside_item rfl rfl)
    · unfold State.countDown
      dsimp only
      split <;> rfl
    · simp [State.Inside, State.countDown, hpc]
  case unlocking =>
    obtain ⟨m, hm, rfl⟩ := Option.map_eq_some_iff.mp hrun
    obtain ⟨hheld, rfl⟩ := Monitor.unlock_spec hm
    refine h.leave hheld rfl ?_ (inside_item rfl rfl)
    simp [State.Inside, State.gotoItem]
  all_goals cases hrun

/-- Every statement of the caller keeps the mutex with the party inside. -/
theorem heldBy_runCaller {vals : List ℤ} {s t : State} (hI : Inv vals s)
    (h : s.monitor.HeldBy s.Inside) (hrun : s.runCaller vals.length = some t) :
    t.monitor.HeldBy t.Inside := by
  unfold State.runCaller at hrun
  cases hpc : s.caller with
  | filling k curr =>
    simp only [hpc] at hrun
    split at hrun
    · next hk =>
      cases hrun
      have hcaller := hI.caller
      unfold CallerOk at hcaller
      rw [hpc] at hcaller
      have hbefore : s.item ⟨k, hk⟩ = .absent := (hcaller.2.2 ⟨k, hk⟩).mpr (Nat.le_refl k)
      refine h.keep (p := .item ⟨k, hk⟩) rfl ?_ ?_
      · simp [State.Inside, State.submit, hbefore]
      · intro r hr
        cases r with
        | caller => simp [State.Inside, State.submit, hpc]
        | item j =>
          have hj : j ≠ ⟨k, hk⟩ := fun he => hr (he ▸ rfl)
          simp only [State.Inside, State.submit, Function.update_of_ne hj]
    · cases hrun
      refine h.keep rfl ?_ (inside_caller rfl)
      simp [State.Inside, State.gotoCaller, hpc]
  | locking =>
    simp only [hpc] at hrun
    obtain ⟨m, hm, rfl⟩ := Option.map_eq_some_iff.mp hrun
    obtain ⟨hfree, rfl⟩ := Monitor.lock_spec hm
    exact h.enter hfree rfl (.inl rfl) (inside_caller rfl)
  | checking =>
    simp only [hpc] at hrun
    split at hrun
    · obtain ⟨m, hm, rfl⟩ := Option.map_eq_some_iff.mp hrun
      obtain ⟨hheld, rfl⟩ := Monitor.wait_spec hm
      refine h.leave hheld rfl ?_ (inside_caller rfl)
      simp [State.Inside, State.gotoCaller]
    · cases hrun
      refine h.keep rfl ?_ (inside_caller rfl)
      simp [State.Inside, State.gotoCaller, hpc]
  | waiting =>
    simp only [hpc] at hrun
    obtain ⟨m, hm, rfl⟩ := Option.map_eq_some_iff.mp hrun
    obtain ⟨-, hfree, rfl⟩ := Monitor.relock_spec hm
    exact h.enter hfree rfl (.inl rfl) (inside_caller rfl)
  | unlocking =>
    simp only [hpc] at hrun
    obtain ⟨m, hm, rfl⟩ := Option.map_eq_some_iff.mp hrun
    obtain ⟨hheld, rfl⟩ := Monitor.unlock_spec hm
    refine h.leave hheld rfl ?_ (inside_caller rfl)
    simp [State.Inside, State.gotoCaller]
  | collecting k total =>
    simp only [hpc] at hrun
    split at hrun <;> cases hrun <;>
      exact h.keep rfl (by simp [State.Inside, State.gotoCaller, hpc]) (inside_caller rfl)
  | returned total =>
    simp only [hpc] at hrun
    cases hrun

/-- The mutex is held exactly by the party inside. -/
theorem heldBy_reachable {vals : List ℤ} {s : State} (hs : (parAdder vals).Reachable s) :
    s.monitor.HeldBy s.Inside := by
  refine System.Reachable.invariant (I := fun s => s.monitor.HeldBy s.Inside) ?_ ?_ hs
  · rintro s ⟨ranges, rfl⟩ p
    cases p <;> simp [State.Inside, Monitor.new]
  · rintro s a t hr hI hstep
    have hnext : s.next vals a = some t := hstep
    match a with
    | .run .caller => exact heldBy_runCaller (inv_reachable hr) hI hnext
    | .run (.item i) => exact heldBy_runItem hI hnext
    | .wake =>
      obtain ⟨m, hm, rfl⟩ := Option.map_eq_some_iff.mp hnext
      exact hI.keep (p := .caller) (Monitor.signal_holder hm) Iff.rfl fun _ _ => Iff.rfl

/-- Statements left to an item. -/
def itemWork (vals : List ℤ) (r : Range) : ItemPc → ℕ
  | .absent => rangeSize vals + 6
  | .queued => rangeSize vals + 5
  | .summing curr _ => r.stop - curr + 4
  | .locking => 3
  | .decrementing => 2
  | .unlocking => 1
  | .finished => 0

/-- Statements left to the caller. Waiting costs less than any statement of an
item as long as the latch is closed. -/
def callerWork (s : State) : ℕ :=
  match s.caller with
  | .filling _ _ => 19
  | .locking => 18
  | .checking => 17
  | .waiting => if s.counter > 0 then 5 else if .caller ∈ s.monitor.asleep .done then 19 else 18
  | .unlocking => 15
  | .collecting k _ => 10 - k
  | .returned _ => 0

/-- What is left to do before the call returns. -/
def work (vals : List ℤ) (s : State) : ℕ :=
  20 * ∑ i, itemWork vals (s.ranges i) (s.item i) + callerWork s

/-- The caller alone never has much left. -/
theorem callerWork_le (s : State) : callerWork s ≤ 19 := by
  unfold callerWork
  cases s.caller <;> dsimp only <;> first | omega | (split <;> [omega; split <;> omega])

/-- A step that brings one item forward leaves less to do. -/
theorem work_item {vals : List ℤ} {s t : State} {i : Fin nprocs} {q : ItemPc} {r : Range}
    (hitem : t.item = Function.update s.item i q)
    (hranges : t.ranges = Function.update s.ranges i r)
    (hless : itemWork vals r q < itemWork vals (s.ranges i) (s.item i)) :
    work vals t < work vals s := by
  have hsum : ∑ j, itemWork vals (t.ranges j) (t.item j) <
      ∑ j, itemWork vals (s.ranges j) (s.item j) := by
    refine Finset.sum_lt_sum (fun j _ => ?_) ⟨i, Finset.mem_univ i, ?_⟩
    · rcases eq_or_ne j i with rfl | hj
      · rw [hitem, hranges, Function.update_self, Function.update_self]
        exact hless.le
      · rw [hitem, hranges, Function.update_of_ne hj, Function.update_of_ne hj]
    · rw [hitem, hranges, Function.update_self, Function.update_self]
      exact hless
  have hbound := callerWork_le t
  unfold work
  omega

/-- A step of the caller alone leaves less to do when the caller has less left. -/
theorem work_caller {vals : List ℤ} {s t : State} (hitem : t.item = s.item)
    (hranges : t.ranges = s.ranges) (hless : callerWork t < callerWork s) :
    work vals t < work vals s := by
  unfold work
  rw [hitem, hranges]
  omega

/-- A submitted item that does not wait for the mutex has a next statement. -/
theorem item_progress {vals : List ℤ} {s : State} (hI : Inv vals s) {i : Fin nprocs}
    (habsent : s.item i ≠ .absent) (hfinished : s.item i ≠ .finished)
    (hlocking : s.item i = .locking → s.monitor.holder = none)
    (hunlocking : s.item i = .unlocking → s.monitor.holder = some (.item i)) :
    ∃ t, s.runItem vals i = some t ∧ work vals t < work vals s := by
  have hitem := hI.items i
  have hkeep : s.ranges = Function.update s.ranges i (s.ranges i) :=
    (Function.update_eq_self i s.ranges).symm
  unfold State.runItem
  cases hpc : s.item i with
  | absent => exact absurd hpc habsent
  | queued =>
    rw [hpc] at hitem
    have hrange : RangeOf vals i (s.ranges i) := hitem
    refine ⟨_, rfl, work_item rfl hkeep ?_⟩
    rw [hpc, itemWork, itemWork, hrange.start_eq, hrange.stop_eq, Nat.succ_mul]
    omega
  | summing curr partialSum =>
    rw [hpc] at hitem
    obtain ⟨hrange, hlo, hhi, -⟩ := hitem
    dsimp only
    split
    · next hlt =>
      have hinside : curr < vals.length := by
        have hle := rangeSize_le vals
        have hmul : (i + 1) * rangeSize vals ≤ nprocs * rangeSize vals :=
          Nat.mul_le_mul_right _ i.isLt
        have hstop := hrange.stop_eq
        omega
      rw [List.getElem?_eq_getElem hinside]
      refine ⟨_, rfl, work_item rfl hkeep ?_⟩
      rw [hpc, itemWork, itemWork]
      omega
    · refine ⟨_, rfl, work_item rfl rfl ?_⟩
      rw [hpc, itemWork, itemWork]
      omega
  | locking =>
    have hfree := hlocking hpc
    dsimp only
    rw [Monitor.lock_of_free hfree]
    refine ⟨_, rfl, work_item rfl hkeep ?_⟩
    rw [hpc, itemWork, itemWork]
    omega
  | decrementing =>
    refine ⟨_, rfl, work_item rfl hkeep ?_⟩
    rw [hpc, itemWork, itemWork]
    omega
  | unlocking =>
    have hheld := hunlocking hpc
    dsimp only
    rw [Monitor.unlock_of_held hheld]
    refine ⟨_, rfl, work_item rfl hkeep ?_⟩
    rw [hpc, itemWork, itemWork]
    omega
  | finished => exact absurd hpc hfinished

/-- While the latch is closed and nobody holds its mutex, some item can go on. -/
theorem closed_progress {vals : List ℤ} {s : State} (hI : Inv vals s) (habsent : ∀ i, s.item i ≠ .absent)
    (hfree : s.monitor.holder = none) (hclosed : s.counter > 0) :
    ∃ a t, (parAdder vals).step s a t ∧ work vals t < work vals s := by
  obtain ⟨n, hn, hcount⟩ := hI.counter
  obtain ⟨i, hi⟩ := hn.exists_of_pos (by omega)
  have hfinished : s.item i ≠ .finished := fun he => by rw [he] at hi; cases hi
  have hout : s.item i ≠ .unlocking := fun he => by rw [he] at hi; cases hi
  obtain ⟨t, hrun, hless⟩ := item_progress hI (habsent i) hfinished (fun _ => hfree)
    fun he => absurd he hout
  exact ⟨.run (.item i), t, hrun, hless⟩

/-- A caller that waits on the latch goes on, or leaves an item to go on. -/
theorem waiting_progress {vals : List ℤ} {s : State} (hI : Inv vals s)
    (hpc : s.caller = .waiting) (hfree : s.monitor.holder = none) :
    ∃ a t, (parAdder vals).step s a t ∧ work vals t < work vals s := by
  have hcaller := hI.caller
  unfold CallerOk at hcaller
  rw [hpc] at hcaller
  by_cases hclosed : s.counter > 0
  · exact closed_progress hI hcaller hfree hclosed
  · by_cases hasleep : .caller ∈ s.monitor.asleep .done
    · have hwake : (parAdder vals).step s .wake { s with monitor := { s.monitor with
          asleep := Function.update s.monitor.asleep .done
            ((s.monitor.asleep .done).erase .caller) } } := by
        show Option.map _ (s.monitor.wake .done .caller) = _
        rw [Monitor.wake, Monitor.signal, if_pos hasleep]
        rfl
      refine ⟨_, _, hwake, work_caller rfl rfl ?_⟩
      have hawake : .caller ∉ Function.update s.monitor.asleep .done
          ((s.monitor.asleep .done).erase .caller) .done := by
        rw [Function.update_self]
        exact Finset.notMem_erase _ _
      simp only [callerWork, hpc, if_neg hclosed, if_pos hasleep, if_neg hawake]
      omega
    · have hrelock : (parAdder vals).step s (.run .caller)
          ({ s with monitor := { s.monitor with holder := some .caller } }.gotoCaller .checking) := by
        show s.runCaller vals.length = _
        rw [State.runCaller, hpc]
        dsimp only
        rw [Monitor.relock, if_neg hasleep, Monitor.lock_of_free hfree]
        rfl
      refine ⟨_, _, hrelock, work_caller rfl rfl ?_⟩
      simp only [callerWork, State.gotoCaller, hpc, if_neg hclosed, if_neg hasleep]
      omega

/-- A call that has not returned has a step that leaves less to do. -/
theorem progress {vals : List ℤ} {s : State} (hs : (parAdder vals).Reachable s)
    (hnot : ∀ total, s.caller ≠ .returned total) :
    ∃ a t, (parAdder vals).step s a t ∧ work vals t < work vals s := by
  have hI := inv_reachable hs
  have hheld := heldBy_reachable hs
  have hcaller := hI.caller
  unfold CallerOk at hcaller
  have hstep : ∀ m q, s.runCaller vals.length = some ({ s with monitor := m }.gotoCaller q) →
      callerWork ({ s with monitor := m }.gotoCaller q) < callerWork s →
      ∃ a t, (parAdder vals).step s a t ∧ work vals t < work vals s :=
    fun m q hrun hless => ⟨.run .caller, _, hrun, work_caller rfl rfl hless⟩
  cases hholder : s.monitor.holder with
  | some p =>
    have hin := (hheld p).mpr hholder
    cases p with
    | item i =>
      have hne : s.item i ≠ .absent ∧ s.item i ≠ .finished ∧ s.item i ≠ .locking := by
        rcases hin with he | he <;> rw [he] <;> exact ⟨nofun, nofun, nofun⟩
      obtain ⟨t, hrun, hless⟩ := item_progress hI hne.1 hne.2.1 (fun he => absurd he hne.2.2)
        fun _ => hholder
      exact ⟨.run (.item i), t, hrun, hless⟩
    | caller =>
      rcases hin with hpc | hpc
      · by_cases hclosed : s.counter > 0
        · refine hstep ⟨none, Function.update s.monitor.asleep .done
            (insert .caller (s.monitor.asleep .done))⟩ .waiting ?_ ?_
          · rw [State.runCaller, hpc]
            dsimp only
            rw [if_pos hclosed, Monitor.wait, if_pos hholder]
            rfl
          · show (if s.counter > 0 then 5 else if _ then 19 else 18) < callerWork s
            rw [if_pos hclosed]
            simp only [callerWork, hpc]
            omega
        · refine hstep s.monitor .unlocking ?_ ?_
          · rw [State.runCaller, hpc]
            dsimp only
            rw [if_neg hclosed]
            rfl
          · simp only [callerWork, State.gotoCaller, hpc]
            omega
      · refine hstep { s.monitor with holder := none } (.collecting 0 0) ?_ ?_
        · rw [State.runCaller, hpc]
          dsimp only
          rw [Monitor.unlock_of_held hholder]
          rfl
        · simp only [callerWork, State.gotoCaller, hpc]
          omega
  | none =>
    have hout : ¬ s.Inside .caller := fun hin => by
      rw [(hheld _).mp hin] at hholder
      cases hholder
    cases hpc : s.caller with
    | filling k curr =>
      rw [hpc] at hcaller
      by_cases hk : k < nprocs
      · have hbefore : s.item ⟨k, hk⟩ = .absent := (hcaller.2.2 ⟨k, hk⟩).mpr (Nat.le_refl k)
        refine ⟨.run .caller, s.submit vals.length ⟨k, hk⟩ curr, ?_, work_item rfl rfl ?_⟩
        · show s.runCaller vals.length = _
          rw [State.runCaller, hpc]
          dsimp only
          rw [dif_pos hk]
        · rw [hbefore, itemWork, itemWork]
          omega
      · refine hstep s.monitor .locking ?_ ?_
        · rw [State.runCaller, hpc]
          dsimp only
          rw [dif_neg hk]
          rfl
        · simp only [callerWork, State.gotoCaller, hpc]
          omega
    | locking =>
      refine hstep { s.monitor with holder := some .caller } .checking ?_ ?_
      · rw [State.runCaller, hpc]
        dsimp only
        rw [Monitor.lock_of_free hholder]
        rfl
      · simp only [callerWork, State.gotoCaller, hpc]
        omega
    | checking => exact absurd (.inl hpc) hout
    | waiting => exact waiting_progress hI hpc hholder
    | unlocking => exact absurd (.inr hpc) hout
    | collecting k total =>
      rw [hpc] at hcaller
      by_cases hk : k < nprocs
      · refine hstep s.monitor (.collecting (k + 1) (total + (s.ranges ⟨k, hk⟩).count)) ?_ ?_
        · rw [State.runCaller, hpc]
          dsimp only
          rw [dif_pos hk]
          rfl
        · have hlt : k < 4 := hk
          simp only [callerWork, State.gotoCaller, hpc]
          omega
      · refine hstep s.monitor (.returned total) ?_ ?_
        · rw [State.runCaller, hpc]
          dsimp only
          rw [dif_neg hk]
          rfl
        · have hle : k ≤ 4 := hcaller.2.2.1
          simp only [callerWork, State.gotoCaller, hpc]
          omega
    | returned total => exact absurd hpc (hnot total)

/-- From every reachable state the call can go on until it returns. -/
theorem returns {vals : List ℤ} {s : State} (hs : (parAdder vals).Reachable s) :
    ∃ t total, (parAdder vals).Steps s t ∧ t.caller = .returned total := by
  have hprogress (u : State) (hu : (parAdder vals).Reachable u)
      (hnot : ¬ ∃ total, u.caller = .returned total) :
      ∃ a v, (parAdder vals).step u a v ∧ work vals v < work vals u :=
    progress hu fun total he => hnot ⟨total, he⟩
  obtain ⟨t, hsteps, total, ht⟩ := hs.eventually (work vals) hprogress
  exact ⟨t, total, hsteps, ht⟩

/-- A call returns some value on every array. -/
theorem exists_returned (vals : List ℤ) :
    ∃ s total, (parAdder vals).Reachable s ∧ s.caller = .returned total := by
  have hstart : (parAdder vals).Reachable
      ⟨fun _ => ⟨0, 0, 0⟩, nprocs, .new, .filling 0 0, fun _ => .absent⟩ := .start ⟨_, rfl⟩
  obtain ⟨t, total, hsteps, ht⟩ := returns hstart
  exact ⟨t, total, hstart.steps hsteps, ht⟩

/-- The call returns the sequential sum exactly when the elements after the
last range add up to nothing. -/
theorem returned_eq_seqAdder_iff {vals : List ℤ} {s : State} {total : ℤ}
    (hs : (parAdder vals).Reachable s) (hreturned : s.caller = .returned total) :
    total = seqAdder vals ↔ sumOn vals (nprocs * rangeSize vals) vals.length = 0 := by
  have hsplit : sumOn vals 0 (nprocs * rangeSize vals) +
      sumOn vals (nprocs * rangeSize vals) vals.length = sumOn vals 0 vals.length :=
    sumOn_append (Nat.zero_le _) (rangeSize_le vals)
  rw [returned_eq hs hreturned, seqAdder_eq]
  omega

/-- A submitted item has its range. -/
theorem Inv.rangeOf {vals : List ℤ} {s : State} (h : Inv vals s) {i : Fin nprocs}
    (hi : s.item i ≠ .absent) : RangeOf vals i (s.ranges i) := by
  have hitem := h.items i
  cases hpc : s.item i with
  | absent => exact absurd hpc hi
  | queued =>
    rw [hpc] at hitem
    exact hitem
  | _ =>
    rw [hpc] at hitem
    exact hitem.1

/-- When the call returns, every item has its range. -/
theorem rangeOf_returned {vals : List ℤ} {s : State} {total : ℤ}
    (hs : (parAdder vals).Reachable s) (hreturned : s.caller = .returned total) (i : Fin nprocs) :
    RangeOf vals i (s.ranges i) := by
  have hI := inv_reachable hs
  have hcaller := hI.caller
  unfold CallerOk at hcaller
  rw [hreturned] at hcaller
  exact hI.rangeOf (hcaller.1 i)

/-- Equal ranges from the start on cover each of the elements below their end
exactly once. -/
theorem covered_once {q k : ℕ} (hk : k < nprocs * q) :
    ∃! i : Fin nprocs, i * q ≤ k ∧ k < (i + 1) * q := by
  have hq : 0 < q := Nat.pos_of_ne_zero fun he => by simp [he] at hk
  have hlo : k / q * q ≤ k := Nat.div_mul_le_self k q
  have hhi : k < (k / q + 1) * q := by
    rw [Nat.mul_comm]
    exact Nat.lt_mul_div_succ k hq
  refine ⟨⟨k / q, (Nat.div_lt_iff_lt_mul hq).mpr hk⟩, ⟨hlo, hhi⟩, fun j hj => Fin.ext ?_⟩
  exact (Nat.div_eq_of_lt_le hj.1 hj.2).symm

/-- The parallel sum agrees with the sequential sum on an array. -/
structure Agrees (vals : List ℤ) : Prop where
  /-- The call can always go on until it returns. -/
  returns : ∀ s, (parAdder vals).Reachable s →
    ∃ t total, (parAdder vals).Steps s t ∧ t.caller = .returned total
  /-- In every order of the items it returns the sequential sum. -/
  result : ∀ s total, (parAdder vals).Reachable s → s.caller = .returned total →
    total = seqAdder vals
  /-- The ranges of the items cover every index exactly once. -/
  covers : ∀ s total, (parAdder vals).Reachable s → s.caller = .returned total →
    ∀ k < vals.length, ∃! i, (s.ranges i).start ≤ k ∧ k < (s.ranges i).stop

/-- The parallel sum agrees exactly on the arrays whose length the number of
work items divides. -/
theorem par_adder_agrees_iff (vals : List ℤ) : Agrees vals ↔ vals.length % nprocs = 0 := by
  have hdiv : vals.length = nprocs * rangeSize vals + vals.length % nprocs :=
    (Nat.div_add_mod vals.length nprocs).symm
  constructor
  · intro h
    by_contra hrest
    obtain ⟨s, total, hs, hreturned⟩ := exists_returned vals
    -- the first element of the remainder is in no range
    have hlast : nprocs * rangeSize vals < vals.length := by omega
    obtain ⟨i, ⟨-, hi⟩, -⟩ := h.covers s total hs hreturned _ hlast
    have hstop := (rangeOf_returned hs hreturned i).stop_eq
    have hmul : (i + 1) * rangeSize vals ≤ nprocs * rangeSize vals :=
      Nat.mul_le_mul_right _ i.isLt
    omega
  · intro hrest
    have hall : vals.length = nprocs * rangeSize vals := by omega
    constructor
    · exact fun s hs => ParAdder.returns hs
    · intro s total hs hreturned
      rw [returned_eq hs hreturned, seqAdder_eq, hall]
    · intro s total hs hreturned k hk
      rw [hall] at hk
      obtain ⟨i, hi, hunique⟩ := covered_once hk
      refine ⟨i, ?_, fun j hj => hunique j ?_⟩
      · have hrange := rangeOf_returned hs hreturned i
        simp only [hrange.start_eq, hrange.stop_eq]
        exact hi
      · have hrange := rangeOf_returned hs hreturned j
        simp only [hrange.start_eq, hrange.stop_eq] at hj
        exact hj

/-- On an array of one element every range is empty. -/
theorem single_element_lost : ∃ s, (parAdder [1]).Reachable s ∧ s.caller = .returned 0 ∧
    seqAdder [1] = 1 ∧ ¬ Agrees [1] := by
  obtain ⟨s, total, hs, hreturned⟩ := exists_returned [1]
  have hzero : total = 0 := returned_eq hs hreturned
  rw [hzero] at hreturned
  refine ⟨s, hs, hreturned, rfl, fun h => ?_⟩
  have hsame := h.result s 0 hs hreturned
  exact absurd hsame (by decide)

end SistemasOperativos.ParAdder
