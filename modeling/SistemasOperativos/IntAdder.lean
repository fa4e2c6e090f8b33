import SistemasOperativos.ParAdderAgreement

/-!
# The parallel sum that keeps its sums in int variables

`par_sum` of tp_adder2.c has the statements of `par_adder`, but an item stores
its sum in the `int` field of its range, and the caller adds these up in an
`int`. Reduction modulo `2 ^ 32` commutes with all statements, so a run of
`par_sum` is the image of one of `par_adder`, and what the call returns is the
sum of the array, reduced.
-/

namespace SistemasOperativos.IntAdder

open TransitionRuns ConditionMonitor MachineInt ParAdder

/-- `NVALS`. -/
abbrev nvals : ℕ := 50000

/-- A value of type `int`. -/
def IsInt (x : ℤ) : Prop := -2 ^ 31 ≤ x ∧ x ≤ intMax

/-- `vals`, an array of `NVALS` elements. -/
structure Vals where
  elems : List ℤ
  length_eq : elems.length = nvals
  isInt : ∀ v ∈ elems, IsInt v

/-- `seq_sum`. -/
def seqSum (vals : Vals) : ℤ := seqAdder vals.elems

/-- One statement of a work item. The sum of `oper_func` is a `long`, `partial_sum` an `int`. -/
def runItem (vals : Vals) (s : State) (i : Fin nprocs) : Option State :=
  match s.item i with
  | .summing curr partialSum =>
    if curr < (s.ranges i).stop then
      vals.elems[curr]?.map fun v => s.gotoItem i (.summing (curr + 1) (partialSum + v))
    else some (s.store i (int32 partialSum))
  | _ => s.runItem vals.elems i

/-- One statement of the caller of `par_sum`. `total` is an `int`. -/
def runCaller (s : State) : Option State :=
  match s.caller with
  | .collecting i total =>
    if h : i < nprocs then
      some (s.gotoCaller (.collecting (i + 1) (int32 (total + (s.ranges ⟨i, h⟩).count))))
    else some (s.gotoCaller (.returned total))
  | _ => s.runCaller nvals

/-- One step of a call. -/
def next (vals : Vals) (s : State) : Action → Option State
  | .run .caller => runCaller s
  | .run (.item i) => runItem vals s i
  | .wake => s.next vals.elems .wake

/-- The start of a call, after `cdl_init`. The ranges are not set, but they hold some `int`. -/
def Called (s : State) : Prop :=
  ∃ ranges : Fin nprocs → Range, (∀ i, IsInt (ranges i).count) ∧
    s = ⟨ranges, nprocs, .new, .filling 0 0, fun _ => .absent⟩

/-- All runs of `par_sum` on an array. -/
def parSum (vals : Vals) : System State Action := ofNext Called (next vals)

/-! ## Reduction -/

theorem int32_eq {x : ℤ} (h : IsInt x) : int32 x = x := by
  unfold IsInt intMax at h
  unfold int32
  omega

/-- A reduced value is of type `int`. -/
theorem isInt_int32 (x : ℤ) : IsInt (int32 x) := by
  unfold IsInt int32 intMax
  omega

/-- Reducing the summands does not matter. -/
theorem int32_add_int32 (x y : ℤ) : int32 (int32 x + int32 y) = int32 (x + y) := by
  unfold int32
  omega

/-- Where a reduced caller stands. -/
def reduceCaller : CallerPc → CallerPc
  | .collecting i total => .collecting i (int32 total)
  | .returned total => .returned (int32 total)
  | q => q

/-- A range with its sum reduced. -/
def reduceRange (r : Range) : Range := { r with count := int32 r.count }

/-- A state of `par_adder` with the sums of the ranges and of the caller reduced. -/
def reduce (s : State) : State :=
  { s with ranges := reduceRange ∘ s.ranges, caller := reduceCaller s.caller }

variable {vals : Vals} {s t : State} {i : Fin nprocs}

theorem reduce_gotoCaller (s : State) (q : CallerPc) :
    reduce (s.gotoCaller q) = (reduce s).gotoCaller (reduceCaller q) := rfl

theorem reduce_store (s : State) (i : Fin nprocs) (x : ℤ) :
    reduce (s.store i x) = (reduce s).store i (int32 x) := by
  unfold reduce State.store
  rw [Function.comp_update]
  rfl

/-- A range that was just filled holds zero. -/
theorem reduceRange_rangeFrom (n curr : ℕ) : reduceRange (rangeFrom n curr) = rangeFrom n curr := by
  have hzero : int32 0 = 0 := by decide
  simp only [reduceRange, rangeFrom, hzero]

theorem reduce_submit (s : State) (n : ℕ) (i : Fin nprocs) (curr : ℕ) :
    reduce (s.submit n i curr) = (reduce s).submit n i curr := by
  unfold reduce State.submit
  rw [Function.comp_update, reduceRange_rangeFrom]
  rfl

/-- A statement of an item, on the reduced state. -/
theorem runItem_reduce (vals : Vals) (s : State) (i : Fin nprocs) :
    runItem vals (reduce s) i = (s.runItem vals.elems i).map reduce := by
  have hitem : (reduce s).item i = s.item i := rfl
  have hstop : ((reduce s).ranges i).stop = (s.ranges i).stop := rfl
  have hmonitor : (reduce s).monitor = s.monitor := rfl
  unfold runItem State.runItem
  rw [hitem]
  cases s.item i with
  | absent | finished => rfl
  | queued | decrementing => rfl
  | summing curr partialSum =>
    simp only [hstop]
    split
    · rw [Option.map_map]
      rfl
    · rw [Option.map_some, reduce_store]
  | locking | unlocking =>
    simp only [hmonitor, Option.map_map]
    rfl

/-- A statement of the caller, on the reduced state. -/
theorem runCaller_reduce (s : State) :
    runCaller (reduce s) = (s.runCaller nvals).map reduce := by
  have hcaller : (reduce s).caller = reduceCaller s.caller := rfl
  have hmonitor : (reduce s).monitor = s.monitor := rfl
  have hcounter : (reduce s).counter = s.counter := rfl
  unfold runCaller State.runCaller
  rw [hcaller]
  cases s.caller with
  | filling k curr =>
    simp only [reduceCaller]
    split
    · rw [Option.map_some, reduce_submit]
    · rfl
  | locking | waiting | unlocking =>
    simp only [reduceCaller, hmonitor, Option.map_map]
    rfl
  | checking =>
    simp only [reduceCaller, hmonitor, hcounter]
    split
    · rw [Option.map_map]
      rfl
    · rfl
  | collecting k total =>
    simp only [reduceCaller]
    split
    · next hk =>
      have hsum : int32 (int32 total + ((reduce s).ranges ⟨k, hk⟩).count) =
          int32 (total + (s.ranges ⟨k, hk⟩).count) := int32_add_int32 _ _
      rw [Option.map_some, reduce_gotoCaller, hsum]
      rfl
    · rfl
  | returned total => rfl

/-- A run of `par_sum` is a run of `par_adder` with reduced sums. -/
theorem reduce_stepMap (vals : Vals) :
    StepMap ParAdder.Called (State.next vals.elems) Called (next vals) reduce where
  init t := by
    constructor
    · rintro ⟨ranges, hint, rfl⟩
      refine ⟨_, ⟨ranges, rfl⟩, ?_⟩
      have hsame : reduceRange ∘ ranges = ranges := by
        funext i
        show { ranges i with count := int32 (ranges i).count } = ranges i
        rw [int32_eq (hint i)]
      unfold reduce
      simp only [hsame, reduceCaller]
    · rintro ⟨s, ⟨ranges, rfl⟩, rfl⟩
      exact ⟨reduceRange ∘ ranges, fun i => isInt_int32 _, rfl⟩
  next s a := by
    match a with
    | .run .caller =>
      show runCaller (reduce s) = (s.runCaller vals.elems.length).map reduce
      rw [vals.length_eq]
      exact runCaller_reduce s
    | .run (.item i) => exact runItem_reduce vals s i
    | .wake =>
      show (s.monitor.wake .done .caller).map _ = ((s.monitor.wake .done .caller).map _).map reduce
      rw [Option.map_map]
      rfl

/-! ## The result -/

/-- The call returns the sum of the array, reduced to an `int`. -/
theorem returned_eq {total : ℤ} (hs : (parSum vals).Reachable s)
    (hreturned : s.caller = .returned total) : total = int32 (seqSum vals) := by
  obtain ⟨u, hu, rfl⟩ := (reduce_stepMap vals).reachable_iff.mp hs
  have hcaller : reduceCaller u.caller = .returned total := hreturned
  cases hpc : u.caller with
  | returned x =>
    rw [hpc] at hcaller
    cases hcaller
    have hsum := ParAdder.returned_eq hu hpc
    have hall : nprocs * ParAdder.rangeSize vals.elems = vals.elems.length := by
      rw [ParAdder.rangeSize, vals.length_eq]
      rfl
    rw [hsum, hall, ← seqAdder_eq, seqSum]
  | _ =>
    rw [hpc] at hcaller
    cases hcaller

/-- The call can always go on until it returns. -/
theorem returns (hs : (parSum vals).Reachable s) :
    ∃ t total, (parSum vals).Steps s t ∧ t.caller = .returned total := by
  obtain ⟨u, hu, rfl⟩ := (reduce_stepMap vals).reachable_iff.mp hs
  obtain ⟨v, total, hsteps, hreturned⟩ := ParAdder.returns hu
  refine ⟨reduce v, int32 total, (reduce_stepMap vals).steps hsteps, ?_⟩
  show reduceCaller v.caller = _
  rw [hreturned]
  rfl

/-- A call returns some value on every array. -/
theorem exists_returned (vals : Vals) :
    ∃ s total, (parSum vals).Reachable s ∧ s.caller = .returned total := by
  obtain ⟨v, total, hv, hreturned⟩ := ParAdder.exists_returned vals.elems
  refine ⟨reduce v, int32 total, (reduce_stepMap vals).reachable_iff.mpr ⟨v, hv, rfl⟩, ?_⟩
  show reduceCaller v.caller = _
  rw [hreturned]
  rfl

/-- Elements of type `int`, added up one after the other. -/
theorem sumOn_bounds (vals : Vals) {a b : ℕ} (hab : a ≤ b) (hb : b ≤ nvals) :
    -2 ^ 31 * (b - a : ℤ) ≤ sumOn vals.elems a b ∧
      sumOn vals.elems a b ≤ intMax * (b - a : ℤ) := by
  induction b, hab using Nat.le_induction with
  | base => simp
  | succ b hab ih =>
    obtain ⟨hlo, hhi⟩ := ih (by omega)
    have hlt : b < vals.elems.length := by
      rw [vals.length_eq]
      omega
    have hint := vals.isInt _ (List.getElem_mem hlt)
    rw [sumOn_succ hab, List.getD_eq_getElem?_getD, List.getElem?_eq_getElem hlt,
      Option.getD_some]
    unfold IsInt intMax at *
    push_cast
    constructor <;> linarith [hint.1, hint.2]

/-- The sum of an item never leaves the range of `long`. That of `seq_sum` does not either, by
the bounds on the sums from index 0 on. -/
theorem long_sums_fit {curr : ℕ} {partialSum : ℤ} (hs : (parSum vals).Reachable s)
    (hpc : s.item i = .summing curr partialSum) :
    -2 ^ 63 ≤ partialSum ∧ partialSum ≤ 2 ^ 63 - 1 := by
  obtain ⟨u, hu, rfl⟩ := (reduce_stepMap vals).reachable_iff.mp hs
  have hitem := (inv_reachable hu).items i
  have hsame : u.item i = .summing curr partialSum := hpc
  rw [hsame] at hitem
  obtain ⟨hrange, hstart, hstop, rfl⟩ := hitem
  have hlength := rangeSize_le vals.elems
  have hmul : (i + 1) * ParAdder.rangeSize vals.elems ≤ nprocs * ParAdder.rangeSize vals.elems :=
    Nat.mul_le_mul_right _ i.isLt
  rw [vals.length_eq] at hlength
  rw [hrange.stop_eq] at hstop
  obtain ⟨hlo, hhi⟩ := sumOn_bounds vals hstart (by omega)
  unfold intMax at hhi
  have hcurr : curr ≤ 50000 := le_trans (by omega) hlength
  constructor <;> omega

/-- `seq_sum` adds up the elements. -/
theorem seqSum_eq (vals : Vals) : seqSum vals = vals.elems.sum := by
  rw [seqSum, seqAdder_eq, sumOn, ← Finset.range_eq_Ico, Finset.sum_range]
  simp only [List.getD_eq_getElem?_getD, List.getElem?_eq_getElem (Fin.is_lt _), Option.getD_some]
  exact Fin.sum_univ_getElem vals.elems

/-- The parallel sum agrees with the sequential one on an array. -/
structure Agrees (vals : Vals) : Prop where
  /-- The call can always go on until it returns. -/
  returns : ∀ s, (parSum vals).Reachable s →
    ∃ t total, (parSum vals).Steps s t ∧ t.caller = .returned total
  /-- In every order of the items it returns the sequential sum. -/
  result : ∀ s total, (parSum vals).Reachable s → s.caller = .returned total →
    total = seqSum vals

/-- The parallel sum agrees exactly on the arrays whose elements add up to an `int`. -/
theorem par_sum_agrees_iff (vals : Vals) :
    Agrees vals ↔ -2 ^ 31 ≤ vals.elems.sum ∧ vals.elems.sum ≤ intMax := by
  constructor
  · intro h
    obtain ⟨s, total, hs, hreturned⟩ := exists_returned vals
    have hreduced := (returned_eq hs hreturned).symm.trans (h.result s total hs hreturned)
    rw [seqSum_eq] at hreduced
    rw [← hreduced]
    exact isInt_int32 _
  · intro hint
    refine ⟨fun s hs => returns hs, fun s total hs hreturned => ?_⟩
    rw [returned_eq hs hreturned, seqSum_eq, int32_eq hint]

/-- An array of large elements. -/
def largeVals : Vals where
  elems := List.replicate nvals 50000
  length_eq := List.length_replicate
  isInt v hv := by
    rw [List.eq_of_mem_replicate hv]
    unfold IsInt intMax
    omega

/-- Its sum is no `int`, and the parallel sum is negative. -/
theorem large_sum_wraps : ∃ s, (parSum largeVals).Reachable s ∧
    s.caller = .returned (-1794967296) ∧ seqSum largeVals = 2500000000 ∧ ¬ Agrees largeVals := by
  have hsum : seqSum largeVals = 2500000000 := by
    rw [seqSum_eq, largeVals, List.sum_replicate]
    rfl
  obtain ⟨s, total, hs, hreturned⟩ := exists_returned largeVals
  have htotal := returned_eq hs hreturned
  rw [hsum] at htotal
  have hwrapped : total = -1794967296 := htotal.trans (by decide)
  refine ⟨s, hs, hwrapped ▸ hreturned, hsum, fun hagrees => ?_⟩
  have hsame := hagrees.result s total hs hreturned
  rw [hsum, hwrapped] at hsame
  exact absurd hsame (by decide)

end SistemasOperativos.IntAdder
