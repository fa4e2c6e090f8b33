import SistemasOperativos.Census
import SistemasOperativos.ParAdder

/-!
# What the parallel sum adds

Whatever the order of the work items, the call returns the sum of the elements
that the ranges cover. The ranges are equal and follow one another from the
start of the array, so they cover all of it exactly when the number of work
items divides its length, and otherwise leave out the remainder at the end.
-/

namespace SistemasOperativos.ParAdder

open TransitionRuns ConditionMonitor Census

/-- Sum of the elements with an index from `a` up to `b`. -/
def sumOn (vals : List ℤ) (a b : ℕ) : ℤ := ∑ k ∈ Finset.Ico a b, vals.getD k 0

@[simp] theorem sumOn_self (vals : List ℤ) (a : ℕ) : sumOn vals a a = 0 := by
  simp only [sumOn, Finset.Ico_self, Finset.sum_empty]

/-- One more element at the end. -/
theorem sumOn_succ {vals : List ℤ} {a b : ℕ} (hab : a ≤ b) :
    sumOn vals a (b + 1) = sumOn vals a b + vals.getD b 0 :=
  Finset.sum_Ico_succ_top hab _

/-- Adjacent ranges add up. -/
theorem sumOn_append {vals : List ℤ} {a b c : ℕ} (hab : a ≤ b) (hbc : b ≤ c) :
    sumOn vals a b + sumOn vals b c = sumOn vals a c :=
  Finset.sum_Ico_consecutive _ hab hbc

/-- The loop of `seq_adder` adds the elements that it passes. -/
theorem seqLoop_eq (vals : List ℤ) (k : ℕ) :
    ∀ i total, seqLoop vals i total k = total + sumOn vals i (i + k) := by
  induction k with
  | zero =>
    intro i total
    rw [seqLoop, Nat.add_zero, sumOn_self, Int.add_zero]
  | succ k ih =>
    intro i total
    have hfirst : sumOn vals i (i + 1) = vals.getD i 0 := by
      rw [sumOn_succ (Nat.le_refl i), sumOn_self, Int.zero_add]
    have hsplit : sumOn vals i (i + 1) + sumOn vals (i + 1) (i + 1 + k) =
        sumOn vals i (i + 1 + k) :=
      sumOn_append (Nat.le_succ i) (Nat.le_add_right (i + 1) k)
    rw [seqLoop, ih, ← hfirst, Int.add_assoc, hsplit, Nat.add_assoc, Nat.add_comm 1 k]

/-- `seq_adder` adds all elements. -/
theorem seqAdder_eq (vals : List ℤ) : seqAdder vals = sumOn vals 0 vals.length := by
  rw [seqAdder, seqLoop_eq, Int.zero_add, Nat.zero_add]

/-- Number of elements in a range. -/
def rangeSize (vals : List ℤ) : ℕ := vals.length / nprocs

/-- All ranges end inside the array. -/
theorem rangeSize_le (vals : List ℤ) : nprocs * rangeSize vals ≤ vals.length :=
  Nat.mul_div_le vals.length nprocs

/-- The range of an item. -/
structure RangeOf (vals : List ℤ) (i : ℕ) (r : Range) : Prop where
  start_eq : r.start = i * rangeSize vals
  stop_eq : r.stop = (i + 1) * rangeSize vals

/-- The end of a range is never cut off. -/
theorem rangeFrom_spec (vals : List ℤ) (i : Fin nprocs) :
    RangeOf vals i (rangeFrom vals.length (i * rangeSize vals)) := by
  have hle := rangeSize_le vals
  have hmul : (i + 1) * rangeSize vals ≤ nprocs * rangeSize vals :=
    Nat.mul_le_mul_right _ i.isLt
  rw [Nat.succ_mul] at hmul
  constructor
  · rfl
  · rw [rangeFrom, Nat.succ_mul]
    exact if_neg (by rw [← rangeSize]; omega)

/-- Past the decrement of the latch. -/
def ItemPc.signaled : ItemPc → Bool
  | .unlocking | .finished => true
  | _ => false

/-- What an item has made of its range. -/
def ItemOk (vals : List ℤ) (i : ℕ) (r : Range) : ItemPc → Prop
  | .absent => True
  | .queued => RangeOf vals i r
  | .summing curr partialSum =>
    RangeOf vals i r ∧ r.start ≤ curr ∧ curr ≤ r.stop ∧ partialSum = sumOn vals r.start curr
  | .locking | .decrementing | .unlocking | .finished =>
    RangeOf vals i r ∧ r.count = sumOn vals r.start r.stop

/-- What the caller knows where it stands. -/
def CallerOk (vals : List ℤ) (s : State) : Prop :=
  match s.caller with
  | .filling k curr =>
    k ≤ nprocs ∧ curr = k * rangeSize vals ∧ ∀ i : Fin nprocs, s.item i = .absent ↔ k ≤ i
  | .locking | .checking | .waiting => ∀ i, s.item i ≠ .absent
  | .unlocking => (∀ i, s.item i ≠ .absent) ∧ s.counter = 0
  | .collecting k total =>
    (∀ i, s.item i ≠ .absent) ∧ s.counter = 0 ∧ k ≤ nprocs ∧
      total = sumOn vals 0 (k * rangeSize vals)
  | .returned total =>
    (∀ i, s.item i ≠ .absent) ∧ s.counter = 0 ∧ total = sumOn vals 0 (nprocs * rangeSize vals)

/-- The state of a call. -/
structure Inv (vals : List ℤ) (s : State) : Prop where
  items : ∀ i : Fin nprocs, ItemOk vals i (s.ranges i) (s.item i)
  caller : CallerOk vals s
  /-- The latch counts the items that have not counted it down. -/
  counter : ∃ n : ℕ, Standing s.item (fun q => !q.signaled) n ∧ (n : ℤ) = s.counter

/-- With the latch open every item has stored its sum. -/
theorem Inv.count_eq {vals : List ℤ} {s : State} (h : Inv vals s) (hopen : s.counter = 0)
    (i : Fin nprocs) : (s.ranges i).count =
      sumOn vals (i * rangeSize vals) ((i + 1) * rangeSize vals) := by
  obtain ⟨n, hn, hcount⟩ := h.counter
  have hzero : n = 0 := by omega
  rw [hzero] at hn
  have hsignaled := hn.zero i
  have hitem := h.items i
  cases hpc : s.item i with
  | unlocking | finished =>
    rw [hpc] at hitem
    rw [hitem.2, hitem.1.start_eq, hitem.1.stop_eq]
  | _ =>
    rw [hpc] at hsignaled
    exact absurd rfl hsignaled

/-- The latch counts an item that has not counted it down. -/
theorem Inv.counter_pos {vals : List ℤ} {s : State} (h : Inv vals s) {i : Fin nprocs}
    (hi : (s.item i).signaled = false) : 0 < s.counter := by
  obtain ⟨n, hn, hcount⟩ := h.counter
  have hpos := hn.pos (p := i) (by rw [hi]; rfl)
  omega

/-- What the caller knows does not depend on what submitted items do. -/
theorem CallerOk.congr {vals : List ℤ} {s t : State} (h : CallerOk vals s)
    (hcaller : t.caller = s.caller) (habsent : ∀ i, t.item i = .absent ↔ s.item i = .absent)
    (hcounter : s.counter = 0 → t.counter = 0) : CallerOk vals t := by
  have hall : (∀ i, s.item i ≠ .absent) → ∀ i, t.item i ≠ .absent :=
    fun hs i hi => hs i ((habsent i).mp hi)
  unfold CallerOk at h ⊢
  rw [hcaller]
  cases hpc : s.caller with
  | filling k curr =>
    rw [hpc] at h
    exact ⟨h.1, h.2.1, fun i => (habsent i).trans (h.2.2 i)⟩
  | locking | checking | waiting =>
    rw [hpc] at h
    exact hall h
  | unlocking =>
    rw [hpc] at h
    exact ⟨hall h.1, hcounter h.2⟩
  | collecting k total =>
    rw [hpc] at h
    exact ⟨hall h.1, hcounter h.2.1, h.2.2⟩
  | returned total =>
    rw [hpc] at h
    exact ⟨hall h.1, hcounter h.2.1, h.2.2⟩

/-- A submitted item executes a statement. -/
theorem Inv.item {vals : List ℤ} {s t : State} (h : Inv vals s) {i : Fin nprocs} {q : ItemPc}
    {r : Range} (hitem : t.item = Function.update s.item i q)
    (hranges : t.ranges = Function.update s.ranges i r) (hcaller : t.caller = s.caller)
    (hbefore : s.item i ≠ .absent) (hafter : q ≠ .absent) (hok : ItemOk vals i r q)
    (hcounter : (q.signaled = (s.item i).signaled ∧ t.counter = s.counter) ∨
      ((s.item i).signaled = false ∧ q.signaled = true ∧ t.counter = s.counter - 1)) :
    Inv vals t := by
  constructor
  · intro j
    rw [hitem, hranges]
    rcases eq_or_ne j i with rfl | hj
    · rw [Function.update_self, Function.update_self]
      exact hok
    · rw [Function.update_of_ne hj, Function.update_of_ne hj]
      exact h.items j
  · refine h.caller.congr hcaller (fun j => ?_) fun hopen => ?_
    · rw [hitem]
      rcases eq_or_ne j i with rfl | hj
      · rw [Function.update_self]
        exact ⟨fun he => absurd he hafter, fun he => absurd he hbefore⟩
      · rw [Function.update_of_ne hj]
    · rcases hcounter with ⟨-, hsame⟩ | ⟨hnot, -, -⟩
      · rw [hsame, hopen]
      · have hpos := h.counter_pos hnot
        omega
  · obtain ⟨n, hn, hcount⟩ := h.counter
    rw [hitem]
    rcases hcounter with ⟨hsame, hkeep⟩ | ⟨hnot, hsignaled, hdown⟩
    · refine ⟨n, hn.stay (by rw [hsame]), ?_⟩
      rw [hkeep, hcount]
    · have hpos := h.counter_pos hnot
      refine ⟨n - 1, hn.leave (by rw [hnot]; rfl) (by rw [hsignaled]; decide), ?_⟩
      omega

/-- The caller executes a statement after the submission loop. -/
theorem Inv.callerStep {vals : List ℤ} {s t : State} (h : Inv vals s) (hitem : t.item = s.item)
    (hranges : t.ranges = s.ranges) (hcounter : t.counter = s.counter) (hok : CallerOk vals t) :
    Inv vals t := by
  constructor
  · intro i
    rw [hitem, hranges]
    exact h.items i
  · exact hok
  · rw [hitem, hcounter]
    exact h.counter

/-- Every statement of an item keeps the invariant. -/
theorem Inv.runItem {vals : List ℤ} {s t : State} {i : Fin nprocs} (h : Inv vals s)
    (hrun : s.runItem vals i = some t) : Inv vals t := by
  have hitem := h.items i
  have hkeep : ∀ r : Fin nprocs → Range, r = Function.update r i (r i) := fun r =>
    (Function.update_eq_self i r).symm
  unfold State.runItem at hrun
  cases hpc : s.item i with
  | absent =>
    rw [hpc] at hrun
    cases hrun
  | queued =>
    rw [hpc] at hrun hitem
    cases hrun
    have hrange : RangeOf vals i (s.ranges i) := hitem
    refine h.item rfl (hkeep s.ranges) rfl (by rw [hpc]; nofun) nofun ?_ (.inl ⟨by rw [hpc]; rfl, rfl⟩)
    refine ⟨hrange, Nat.le_refl _, ?_, (sumOn_self _ _).symm⟩
    rw [hrange.start_eq, hrange.stop_eq]
    exact Nat.mul_le_mul_right _ (Nat.le_succ _)
  | summing curr partialSum =>
    rw [hpc] at hitem
    simp only [hpc] at hrun
    obtain ⟨hrange, hlo, hhi, hsum⟩ := hitem
    split at hrun
    · next hlt =>
      obtain ⟨v, hv, rfl⟩ := Option.map_eq_some_iff.mp hrun
      refine h.item rfl (hkeep s.ranges) rfl (by rw [hpc]; nofun) nofun ?_
        (.inl ⟨by rw [hpc]; rfl, rfl⟩)
      refine ⟨hrange, by omega, hlt, ?_⟩
      rw [sumOn_succ hlo, hsum, List.getD_eq_getElem?_getD, hv, Option.getD_some]
    · next hge =>
      cases hrun
      refine h.item rfl rfl rfl (by rw [hpc]; nofun) nofun ?_ (.inl ⟨by rw [hpc]; rfl, rfl⟩)
      have hend : curr = (s.ranges i).stop := by omega
      rw [hend] at hsum
      exact ⟨⟨hrange.start_eq, hrange.stop_eq⟩, hsum⟩
  | locking =>
    rw [hpc] at hitem
    simp only [hpc] at hrun
    obtain ⟨m, -, rfl⟩ := Option.map_eq_some_iff.mp hrun
    exact h.item rfl (hkeep s.ranges) rfl (by rw [hpc]; nofun) nofun hitem
      (.inl ⟨by rw [hpc]; rfl, rfl⟩)
  | decrementing =>
    rw [hpc] at hitem
    simp only [hpc] at hrun
    cases hrun
    exact h.item rfl (hkeep s.ranges) rfl (by rw [hpc]; nofun) nofun hitem
      (.inr ⟨by rw [hpc]; rfl, rfl, rfl⟩)
  | unlocking =>
    rw [hpc] at hitem
    simp only [hpc] at hrun
    obtain ⟨m, -, rfl⟩ := Option.map_eq_some_iff.mp hrun
    exact h.item rfl (hkeep s.ranges) rfl (by rw [hpc]; nofun) nofun hitem
      (.inl ⟨by rw [hpc]; rfl, rfl⟩)
  | finished =>
    rw [hpc] at hrun
    cases hrun

/-- The caller submits the next item. -/
theorem Inv.submit {vals : List ℤ} {s : State} {k curr : ℕ} (h : Inv vals s)
    (hpc : s.caller = .filling k curr) (hk : k < nprocs) :
    Inv vals (s.submit vals.length ⟨k, hk⟩ curr) := by
  have hcaller := h.caller
  unfold CallerOk at hcaller
  rw [hpc] at hcaller
  obtain ⟨-, hcurr, habsent⟩ := hcaller
  have hbefore : s.item ⟨k, hk⟩ = .absent := (habsent ⟨k, hk⟩).mpr (Nat.le_refl k)
  constructor
  · intro j
    show ItemOk vals j (Function.update s.ranges _ _ j) (Function.update s.item _ _ j)
    rcases eq_or_ne j ⟨k, hk⟩ with rfl | hj
    · rw [Function.update_self, Function.update_self, hcurr]
      exact rangeFrom_spec vals ⟨k, hk⟩
    · rw [Function.update_of_ne hj, Function.update_of_ne hj]
      exact h.items j
  · refine ⟨hk, ?_, fun j => ?_⟩
    · rw [hcurr, Nat.succ_mul]
      rfl
    · show Function.update s.item _ _ j = _ ↔ _
      rcases eq_or_ne j ⟨k, hk⟩ with rfl | hj
      · rw [Function.update_self]
        exact ⟨fun he => (nomatch he), fun hle => absurd hle (Nat.not_succ_le_self k)⟩
      · have hne : (j : ℕ) ≠ k := fun he => hj (Fin.ext he)
        rw [Function.update_of_ne hj, habsent j]
        show k ≤ (j : ℕ) ↔ k + 1 ≤ j
        omega
  · obtain ⟨n, hn, hcount⟩ := h.counter
    exact ⟨n, hn.stay (by rw [hbefore]; decide), hcount⟩

/-- Every statement of the caller keeps the invariant. -/
theorem Inv.runCaller {vals : List ℤ} {s t : State} (h : Inv vals s)
    (hrun : s.runCaller vals.length = some t) : Inv vals t := by
  have hcaller := h.caller
  unfold CallerOk at hcaller
  unfold State.runCaller at hrun
  cases hpc : s.caller with
  | filling k curr =>
    rw [hpc] at hcaller
    simp only [hpc] at hrun
    split at hrun
    · next hk =>
      cases hrun
      exact h.submit hpc hk
    · next hk =>
      cases hrun
      refine h.callerStep rfl rfl rfl fun i hi => ?_
      have hle := (hcaller.2.2 i).mp hi
      exact hk (Nat.lt_of_le_of_lt hle i.isLt)
  | locking =>
    rw [hpc] at hcaller
    simp only [hpc] at hrun
    obtain ⟨m, -, rfl⟩ := Option.map_eq_some_iff.mp hrun
    exact h.callerStep rfl rfl rfl hcaller
  | checking =>
    rw [hpc] at hcaller
    simp only [hpc] at hrun
    split at hrun
    · obtain ⟨m, -, rfl⟩ := Option.map_eq_some_iff.mp hrun
      exact h.callerStep rfl rfl rfl hcaller
    · next hopen =>
      cases hrun
      obtain ⟨n, -, hcount⟩ := h.counter
      have hzero : s.counter = 0 := by omega
      exact h.callerStep rfl rfl rfl ⟨hcaller, hzero⟩
  | waiting =>
    rw [hpc] at hcaller
    simp only [hpc] at hrun
    obtain ⟨m, -, rfl⟩ := Option.map_eq_some_iff.mp hrun
    exact h.callerStep rfl rfl rfl hcaller
  | unlocking =>
    rw [hpc] at hcaller
    simp only [hpc] at hrun
    obtain ⟨m, -, rfl⟩ := Option.map_eq_some_iff.mp hrun
    refine h.callerStep rfl rfl rfl ⟨hcaller.1, hcaller.2, Nat.zero_le _, ?_⟩
    rw [Nat.zero_mul, sumOn_self]
  | collecting k total =>
    rw [hpc] at hcaller
    simp only [hpc] at hrun
    obtain ⟨hall, hopen, hle, hsum⟩ := hcaller
    split at hrun
    · next hk =>
      cases hrun
      refine h.callerStep rfl rfl rfl ⟨hall, hopen, hk, ?_⟩
      have hcount := h.count_eq hopen ⟨k, hk⟩
      have hnext : k * rangeSize vals ≤ (k + 1) * rangeSize vals :=
        Nat.mul_le_mul_right _ (Nat.le_succ k)
      rw [hsum, hcount, sumOn_append (Nat.zero_le _) hnext]
    · next hk =>
      cases hrun
      have hend : k = nprocs := by omega
      rw [hend] at hsum
      exact h.callerStep rfl rfl rfl ⟨hall, hopen, hsum⟩
  | returned total =>
    simp only [hpc] at hrun
    cases hrun

/-- Every reachable state of a call satisfies the invariant. -/
theorem inv_reachable {vals : List ℤ} {s : State} (hs : (parAdder vals).Reachable s) :
    Inv vals s := by
  refine System.Reachable.invariant (I := Inv vals) ?_ ?_ hs
  · rintro s ⟨ranges, rfl⟩
    constructor
    · exact fun _ => trivial
    · exact ⟨Nat.zero_le _, (Nat.zero_mul _).symm, fun i => ⟨fun _ => Nat.zero_le _, fun _ => rfl⟩⟩
    · exact ⟨nprocs, ⟨Finset.univ, fun i => ⟨fun _ => rfl, fun _ => Finset.mem_univ i⟩,
        Finset.card_fin nprocs⟩, rfl⟩
  · rintro s a t - hI hstep
    have hnext : s.next vals a = some t := hstep
    match a with
    | .run .caller => exact hI.runCaller hnext
    | .run (.item i) => exact hI.runItem hnext
    | .wake =>
      obtain ⟨m, -, rfl⟩ := Option.map_eq_some_iff.mp hnext
      exact hI.callerStep rfl rfl rfl hI.caller

/-- Whatever the order of the items, the call returns the sum of what the
ranges cover. -/
theorem returned_eq {vals : List ℤ} {s : State} {total : ℤ} (hs : (parAdder vals).Reachable s)
    (hreturned : s.caller = .returned total) :
    total = sumOn vals 0 (nprocs * rangeSize vals) := by
  have hcaller := (inv_reachable hs).caller
  unfold CallerOk at hcaller
  rw [hreturned] at hcaller
  exact hcaller.2.2

end SistemasOperativos.ParAdder
