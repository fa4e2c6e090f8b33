import SistemasOperativos.Census
import SistemasOperativos.MutexChannel

/-!
# Wake-ups of the mutex channel

The two sides are symmetric: elements are what a get waits for, and free slots
are what a put waits for. While somebody sleeps, each available one is owed to
a caller that was woken, or to one that has still to signal, or to the holder
of the mutex, which takes one or has made one.
-/

namespace SistemasOperativos.MutexChannel

open TransitionRuns ConditionMonitor MachineInt Census

/-- What a caller that sleeps on a condition waits for. -/
def Cond.available (rb : MemChannel) : Cond → ℤ
  | .hasItems => rb.size
  | .hasSpace => rb.capacity - rb.size

/-- The call let its test pass and has not counted yet. -/
def Pc.Admitted (c : Call) : Pc → Prop
  | .copying d | .advancing d | .wrapping d | .counting d => d = c
  | _ => False

/-- Where a caller stands, and whether it is asleep there. -/
abbrev Place : Type := Pc × Bool

/-- The callers to which an available element or slot is owed. -/
def Owed (c : Cond) : Place → Prop
  | (.waiting d, asleep) => d.waitsFor = c ∧ asleep = false
  | (.checking d, _) | (.copying d, _) | (.advancing d, _) | (.wrapping d, _) | (.counting d, _) =>
    d.waitsFor = c
  | (.unlocking d, _) | (.signaling d, _) => d.signals = c
  | (.idle, _) | (.locking _, _) => False

instance (c : Cond) : DecidablePred (Owed c)
  | (.waiting d, asleep) => inferInstanceAs (Decidable (d.waitsFor = c ∧ asleep = false))
  | (.checking d, _) | (.copying d, _) | (.advancing d, _) | (.wrapping d, _) | (.counting d, _) =>
    inferInstanceAs (Decidable (d.waitsFor = c))
  | (.unlocking d, _) | (.signaling d, _) => inferInstanceAs (Decidable (d.signals = c))
  | (.idle, _) | (.locking _, _) => .isFalse id

/-- A call is blocked when nothing is available. -/
theorem blocked_iff (rb : MemChannel) (c : Call) :
    c.blocked rb ↔ c.waitsFor.available rb = 0 := by
  cases c with
  | put item =>
    change rb.size = rb.capacity ↔ rb.capacity - rb.size = 0
    omega
  | get => exact Iff.rfl

variable {π : Type*} [DecidableEq π]

/-- The place of a caller. -/
def State.place (s : State π) (p : π) : Place :=
  (s.pc p, match s.pc p with
    | .waiting c => decide (p ∈ s.monitor.asleep c.waitsFor)
    | _ => false)

/-- Sleepers wait, the counter stays in its range, and what is available while
somebody sleeps is owed. -/
structure WakeInv (capacity : ℤ) (s : State π) : Prop where
  holding : s.monitor.HeldBy fun p => (s.pc p).Holding
  capacity_eq : s.rb.capacity = capacity
  size_nonneg : 0 ≤ s.rb.size
  size_le : s.rb.size ≤ capacity
  admitted : ∀ p c, (s.pc p).Admitted c → ¬ c.blocked s.rb
  asleep : ∀ c p, p ∈ s.monitor.asleep c → ∃ d, s.pc p = .waiting d ∧ d.waitsFor = c
  owed : ∀ c, ∃ n, Standing s.place (Owed c) n ∧
    ((s.monitor.asleep c).Nonempty → c.available s.rb ≤ n)

/-- The test only looks at the counter and the capacity. -/
theorem blocked_congr {rb rb' : MemChannel} (hsize : rb'.size = rb.size)
    (hcapacity : rb'.capacity = rb.capacity) (c : Call) : c.blocked rb' ↔ c.blocked rb := by
  cases c with
  | put item =>
    change rb'.size = rb'.capacity ↔ rb.size = rb.capacity
    rw [hsize, hcapacity]
  | get =>
    change rb'.size = 0 ↔ rb.size = 0
    rw [hsize]

section Places

variable {s t : State π} {p : π} {q : Pc}

/-- A caller that does not wait is not asleep. -/
theorem place_of_not_waiting (h : ∀ c, s.pc p ≠ .waiting c) : s.place p = (s.pc p, false) := by
  unfold State.place
  split
  next c hc => exact absurd hc (h c)
  next => rfl

/-- The place of a sleeper. -/
theorem place_asleep {c : Call} (h : s.pc p = .waiting c)
    (hmem : p ∈ s.monitor.asleep c.waitsFor) : s.place p = (.waiting c, true) := by
  simp only [State.place, h, hmem, decide_true]

/-- When only one caller moves or falls asleep, only its place changes. -/
theorem place_update (hpc : t.pc = Function.update s.pc p q)
    (hasleep : ∀ r, r ≠ p → ∀ c, r ∈ t.monitor.asleep c ↔ r ∈ s.monitor.asleep c) :
    t.place = Function.update s.place p (t.place p) := by
  funext r
  rcases eq_or_ne r p with rfl | hr
  · rw [Function.update_self]
  · rw [Function.update_of_ne hr]
    have hsame : t.pc r = s.pc r := by rw [hpc, Function.update_of_ne hr]
    simp only [State.place, hsame, hasleep r hr]

end Places

section Steps

variable {capacity : ℤ} {s t : State π} {p : π} {q : Pc}

/-- A caller that is awake is in no set of sleepers. -/
theorem WakeInv.notMem (h : WakeInv capacity s) (hp : (s.place p).2 = false) (c : Cond) :
    p ∉ s.monitor.asleep c := by
  intro hmem
  obtain ⟨d, hd, rfl⟩ := h.asleep c p hmem
  simp only [State.place, hd, decide_eq_false_iff_not] at hp
  exact hp hmem

/-- A caller that is awake moves on and does not fall asleep. What it leaves is
compared with any bound for what is owed. -/
theorem WakeInv.move_of_count (h : WakeInv capacity s) {bound : Cond → ℤ}
    (hcount : ∀ c, ∃ n, Standing s.place (Owed c) n ∧
      ((s.monitor.asleep c).Nonempty → bound c ≤ n))
    (hpc : t.pc = Function.update s.pc p q)
    (hasleep : t.monitor.asleep = s.monitor.asleep) (hp : (s.place p).2 = false)
    (hq : ∀ c, q ≠ .waiting c) (hholding : t.monitor.HeldBy fun r => (t.pc r).Holding)
    (hcapacity : t.rb.capacity = s.rb.capacity)
    (hsize : t.rb.size = s.rb.size ∨
      s.monitor.holder = some p ∧ 0 ≤ t.rb.size ∧ t.rb.size ≤ s.rb.capacity)
    (hadmitted : ∀ c, q.Admitted c → ¬ c.blocked t.rb)
    (howed : ∀ c, (s.monitor.asleep c).Nonempty →
      c.available t.rb + (if Owed c (s.place p) then 1 else 0) ≤
        bound c + if Owed c (q, false) then 1 else 0) : WakeInv capacity t := by
  have hself : t.pc p = q := by rw [hpc, Function.update_self]
  have hother : ∀ r, r ≠ p → t.pc r = s.pc r := fun r hr => by rw [hpc, Function.update_of_ne hr]
  have hplace : t.place = Function.update s.place p (q, false) := by
    have hnew : t.place p = (q, false) := by
      rw [place_of_not_waiting (fun c => hself ▸ hq c), hself]
    rw [← hnew]
    exact place_update hpc fun r _ c => by rw [hasleep]
  constructor
  · exact hholding
  · exact hcapacity.trans h.capacity_eq
  · rcases hsize with hsame | ⟨-, hlo, -⟩
    · exact hsame ▸ h.size_nonneg
    · exact hlo
  · rcases hsize with hsame | ⟨-, -, hhi⟩
    · exact hsame ▸ h.size_le
    · exact h.capacity_eq ▸ hhi
  · intro r c hr
    rcases eq_or_ne r p with rfl | hne
    · exact hadmitted c (hself ▸ hr)
    · -- another caller that was admitted holds the mutex, so the counter is as it was
      rw [hother r hne] at hr
      have hinside : (s.pc r).Holding := by
        cases hpr : s.pc r with
        | copying d | advancing d | wrapping d | counting d => trivial
        | idle | locking d | checking d | waiting d | unlocking d | signaling d =>
          rw [hpr] at hr
          exact hr.elim
      have hholder := (h.holding r).mp hinside
      have hsame : t.rb.size = s.rb.size := by
        rcases hsize with hsame | ⟨hp', -⟩
        · exact hsame
        · exact absurd (Option.some.inj (hholder.symm.trans hp')) hne
      exact mt (blocked_congr hsame hcapacity c).mp (h.admitted r c hr)
  · intro c r hr
    rw [hasleep] at hr
    have hne : r ≠ p := fun he => h.notMem hp c (he ▸ hr)
    rw [hother r hne]
    exact h.asleep c r hr
  · intro c
    rw [hplace]
    refine Standing.covers (hcount c) p (q, false) fun hsome => .inr ?_
    rw [hasleep] at hsome
    exact ⟨hsome, howed c hsome⟩

/-- A caller that is awake moves on, and what it leaves is still owed. -/
theorem WakeInv.move (h : WakeInv capacity s) (hpc : t.pc = Function.update s.pc p q)
    (hasleep : t.monitor.asleep = s.monitor.asleep) (hp : (s.place p).2 = false)
    (hq : ∀ c, q ≠ .waiting c) (hholding : t.monitor.HeldBy fun r => (t.pc r).Holding)
    (hcapacity : t.rb.capacity = s.rb.capacity)
    (hsize : t.rb.size = s.rb.size ∨
      s.monitor.holder = some p ∧ 0 ≤ t.rb.size ∧ t.rb.size ≤ s.rb.capacity)
    (hadmitted : ∀ c, q.Admitted c → ¬ c.blocked t.rb)
    (howed : ∀ c, (s.monitor.asleep c).Nonempty →
      c.available t.rb + (if Owed c (s.place p) then 1 else 0) ≤
        c.available s.rb + if Owed c (q, false) then 1 else 0) : WakeInv capacity t :=
  h.move_of_count h.owed hpc hasleep hp hq hholding hcapacity hsize hadmitted howed

/-- A caller finds nothing available, gives the mutex up and falls asleep. -/
theorem WakeInv.wait (h : WakeInv capacity s) {c : Call} (hpc : s.pc p = .checking c)
    (hblocked : c.blocked s.rb) (ht : t.pc = Function.update s.pc p (.waiting c))
    (hrb : t.rb = s.rb) (hm : t.monitor = ⟨none, Function.update s.monitor.asleep c.waitsFor
      (insert p (s.monitor.asleep c.waitsFor))⟩) : WakeInv capacity t := by
  have hinside : (s.pc p).Holding := by rw [hpc]; trivial
  have hheld := (h.holding p).mp hinside
  have hself : t.pc p = .waiting c := by rw [ht, Function.update_self]
  have hother : ∀ r, r ≠ p → t.pc r = s.pc r := fun r hr => by rw [ht, Function.update_of_ne hr]
  have hmem : ∀ r d, r ∈ t.monitor.asleep d ↔
      r ∈ s.monitor.asleep d ∨ r = p ∧ d = c.waitsFor := by
    intro r d
    rw [hm]
    rcases eq_or_ne d c.waitsFor with rfl | hd
    · simp only [Function.update_self, Finset.mem_insert, and_true, or_comm]
    · simp only [Function.update_of_ne hd, hd, and_false, or_false]
  constructor
  · exact Monitor.HeldBy.moves_out (I := Pc.Holding) h.holding hheld (by rw [hm]) ht id
  · exact hrb ▸ h.capacity_eq
  · exact hrb ▸ h.size_nonneg
  · exact hrb ▸ h.size_le
  · intro r d hr
    rw [hrb]
    rcases eq_or_ne r p with rfl | hne
    · rw [hself] at hr
      exact hr.elim
    · exact h.admitted r d (hother r hne ▸ hr)
  · intro d r hr
    rcases (hmem r d).mp hr with hold | ⟨rfl, rfl⟩
    · obtain ⟨e, hwaiting, hcond⟩ := h.asleep d r hold
      have hne : r ≠ p := fun he => by
        rw [he, hpc] at hwaiting
        cases hwaiting
      exact ⟨e, (hother r hne).trans hwaiting, hcond⟩
    · exact ⟨c, hself, rfl⟩
  · intro d
    have hplace : t.place = Function.update s.place p (.waiting c, true) := by
      have hasleep : p ∈ t.monitor.asleep c.waitsFor := (hmem p c.waitsFor).mpr (.inr ⟨rfl, rfl⟩)
      rw [← place_asleep hself hasleep]
      exact place_update ht fun r hr d => by simp only [hmem, hr, false_and, or_false]
    rw [hplace, hrb]
    refine Standing.covers (h.owed d) p (.waiting c, true) fun hsome => ?_
    rcases eq_or_ne d c.waitsFor with rfl | hd
    · exact .inl ((blocked_iff s.rb c).mp hblocked).le
    · right
      rw [hm] at hsome
      change (Function.update s.monitor.asleep c.waitsFor _ d).Nonempty at hsome
      rw [Function.update_of_ne hd] at hsome
      have hold : ¬ Owed d (s.place p) := by
        rw [place_of_not_waiting (by rw [hpc]; exact nofun), hpc]
        exact hd.symm
      have hnew : ¬ Owed d (.waiting c, true) := fun hw => by cases hw.2
      rw [if_neg hold, if_neg hnew]
      exact ⟨hsome, le_rfl⟩

/-- A sleeper that is woken stays where it is. -/
theorem place_wake {c : Call} {d : Cond} {r : π} (ht : t.pc = s.pc) (hpc : s.pc r = .waiting c)
    (hcond : c.waitsFor = d)
    (hasleep : t.monitor.asleep =
      Function.update s.monitor.asleep d ((s.monitor.asleep d).erase r)) :
    t.place = Function.update s.place r (.waiting c, false) := by
  subst hcond
  have hnew : t.place r = (.waiting c, false) := by
    have hself : t.pc r = .waiting c := by rw [ht, hpc]
    simp [State.place, hself, hasleep]
  rw [← hnew]
  refine place_update (q := .waiting c) (by rw [ht, ← hpc, Function.update_eq_self])
    fun q hq e => ?_
  rw [hasleep]
  rcases eq_or_ne e c.waitsFor with rfl | he
  · simp only [Function.update_self, Finset.mem_erase, ne_eq, hq, not_false_eq_true, true_and]
  · rw [Function.update_of_ne he]

/-- Waking a sleeper adds none. -/
theorem asleep_subset {d : Cond} {r : π} (hasleep : t.monitor.asleep =
    Function.update s.monitor.asleep d ((s.monitor.asleep d).erase r)) (e : Cond) :
    t.monitor.asleep e ⊆ s.monitor.asleep e := by
  rw [hasleep]
  rcases eq_or_ne e d with rfl | he
  · rw [Function.update_self]
    exact Finset.erase_subset _ _
  · rw [Function.update_of_ne he]

/-- What was owed while a sleeper slept, and once more to the sleeper that was woken. -/
theorem WakeInv.raised (h : WakeInv capacity s) {d : Cond} {r : π} (hr : r ∈ s.monitor.asleep d)
    (ht : t.pc = s.pc) (hasleep : t.monitor.asleep =
      Function.update s.monitor.asleep d ((s.monitor.asleep d).erase r)) (e : Cond) :
    ∃ n, Standing t.place (Owed e) n ∧ ((t.monitor.asleep e).Nonempty →
      e.available s.rb + (if d = e then 1 else 0) ≤ n) := by
  obtain ⟨c, hpc, rfl⟩ := h.asleep d r hr
  rw [place_wake ht hpc rfl hasleep]
  refine Standing.covers (h.owed e) r (.waiting c, false) fun hsome =>
    .inr ⟨hsome.mono (asleep_subset hasleep e), ?_⟩
  have hold : ¬ Owed e (s.place r) := by
    rw [place_asleep hpc hr]
    exact fun hw => by cases hw.2
  have hnew : Owed e (.waiting c, false) ↔ c.waitsFor = e := and_iff_left rfl
  simp only [if_neg hold, hnew, add_zero, le_refl]

/-- A sleeper wakes for no reason. -/
theorem WakeInv.wake (h : WakeInv capacity s) {d : Cond} {r : π} (hr : r ∈ s.monitor.asleep d)
    (ht : t.pc = s.pc) (hrb : t.rb = s.rb) (hholder : t.monitor.holder = s.monitor.holder)
    (hasleep : t.monitor.asleep =
      Function.update s.monitor.asleep d ((s.monitor.asleep d).erase r)) :
    WakeInv capacity t := by
  constructor
  · intro q
    rw [ht, hholder]
    exact h.holding q
  · exact hrb ▸ h.capacity_eq
  · exact hrb ▸ h.size_nonneg
  · exact hrb ▸ h.size_le
  · rw [ht, hrb]
    exact h.admitted
  · intro e q hq
    rw [ht]
    exact h.asleep e q (asleep_subset hasleep e hq)
  · intro e
    obtain ⟨n, hn, hle⟩ := h.raised hr ht hasleep e
    refine ⟨n, hn, fun hsome => ?_⟩
    have hbound := hle hsome
    rw [hrb]
    split at hbound <;> omega

/-- A caller signals and returns. -/
theorem WakeInv.signal (h : WakeInv capacity s) {c : Call} {w : Option π} {m : Monitor π Cond}
    (hpc : s.pc p = .signaling c) (hm : s.monitor.signal c.signals w = some m)
    (ht : t.pc = Function.update s.pc p .idle) (hrb : t.rb = s.rb) (hmonitor : t.monitor = m) :
    WakeInv capacity t := by
  have hawake : ∀ d, s.pc p ≠ .waiting d := by
    rw [hpc]
    exact fun _ => Pc.noConfusion
  have hp : s.place p = (.signaling c, false) := by
    rw [place_of_not_waiting hawake, hpc]
  have hholding : t.monitor.HeldBy fun r => (t.pc r).Holding :=
    Monitor.HeldBy.stays (I := Pc.Holding) h.holding
      (by rw [hmonitor]; exact Monitor.signal_holder hm) ht (by rw [hpc]; exact Iff.rfl)
  have hnone : ∀ d, ¬ Owed d (.idle, false) := fun _ => id
  cases w with
  | none =>
    simp only [Monitor.signal, Option.ite_none_right_eq_some, Option.some.injEq] at hm
    obtain ⟨hempty, rfl⟩ := hm
    refine h.move ht (by rw [hmonitor]) (by rw [hp]) (fun _ => Pc.noConfusion) hholding (by rw [hrb])
      (.inl (by rw [hrb])) (fun _ hc => hc.elim) fun d hsome => ?_
    -- nobody sleeps on the condition that was signalled
    have hd : ¬ Owed d (s.place p) := by
      rw [hp]
      rintro rfl
      exact absurd hempty (Finset.card_pos.mpr hsome).ne'
    rw [hrb, if_neg hd, if_neg (hnone d)]
  | some r =>
    simp only [Monitor.signal, Option.ite_none_right_eq_some, Option.some.injEq] at hm
    obtain ⟨hr, rfl⟩ := hm
    -- what was owed to the signal is owed to the caller that it wakes
    have hcount := h.raised (t := { s with monitor := t.monitor }) hr rfl (by rw [hmonitor])
    have hwoken : WakeInv capacity { s with monitor := t.monitor } :=
      h.wake hr rfl rfl (by rw [hmonitor]) (by rw [hmonitor])
    refine hwoken.move_of_count hcount ht rfl ?_
      (fun _ => Pc.noConfusion) hholding (by rw [hrb]) (.inl (by rw [hrb])) (fun _ hc => hc.elim)
      fun d _ => ?_
    · rw [place_of_not_waiting (s := { s with monitor := t.monitor }) hawake]
    · rw [place_of_not_waiting (s := { s with monitor := t.monitor }) hawake, hpc, hrb, if_neg (hnone d), add_zero]
      exact le_rfl

/-- Only the counting changes the counter, and nothing changes the capacity. -/
theorem record_kept (rb : MemChannel) (c : Call) :
    (c.copied rb).size = rb.size ∧ (c.copied rb).capacity = rb.capacity ∧
      (c.advanced rb).size = rb.size ∧ (c.advanced rb).capacity = rb.capacity ∧
      (c.wrapped rb).size = rb.size ∧ (c.wrapped rb).capacity = rb.capacity := by
  cases c with
  | put item =>
    refine ⟨rfl, rfl, rfl, rfl, ?_, ?_⟩ <;> simp only [Call.wrapped] <;> split <;> rfl
  | get =>
    refine ⟨rfl, rfl, rfl, rfl, ?_, ?_⟩ <;> simp only [Call.wrapped] <;> split <;> rfl

/-- What is available only depends on the counter and the capacity. -/
theorem available_congr {rb rb' : MemChannel} (hsize : rb'.size = rb.size)
    (hcapacity : rb'.capacity = rb.capacity) (d : Cond) : d.available rb' = d.available rb := by
  cases d with
  | hasItems => exact hsize
  | hasSpace => rw [Cond.available, Cond.available, hsize, hcapacity]

/-- The holder of the mutex goes on without counting. -/
theorem WakeInv.proceed (h : WakeInv capacity s) (hp : (s.pc p).Holding) (hq : q.Holding)
    (hpc : t.pc = Function.update s.pc p q) (hm : t.monitor = s.monitor)
    (hsize : t.rb.size = s.rb.size) (hcapacity : t.rb.capacity = s.rb.capacity)
    (hadmitted : ∀ c, q.Admitted c → ¬ c.blocked s.rb)
    (howed : ∀ d, Owed d (s.pc p, false) → Owed d (q, false)) : WakeInv capacity t := by
  have hawake : s.place p = (s.pc p, false) := place_of_not_waiting fun c he => by
    rw [he] at hp
    exact hp
  have hholding : t.monitor.HeldBy fun r => (t.pc r).Holding :=
    Monitor.HeldBy.stays (I := Pc.Holding) h.holding (by rw [hm]) hpc (iff_of_true hq hp)
  refine h.move hpc (by rw [hm]) (by rw [hawake]) ?_ hholding hcapacity (.inl hsize) ?_ ?_
  · rintro c rfl
    exact hq
  · exact fun c hc => mt (blocked_congr hsize hcapacity c).mp (hadmitted c hc)
  · intro d _
    rw [available_congr hsize hcapacity, hawake]
    by_cases hold : Owed d (s.pc p, false)
    · rw [if_pos hold, if_pos (howed d hold)]
    · rw [if_neg hold]
      split <;> omega

/-- What the counting makes available, and what it takes. -/
theorem available_counted {rb : MemChannel} (hlo : 0 ≤ rb.size) (hhi : rb.size ≤ rb.capacity)
    (hmax : rb.capacity ≤ intMax) {c : Call} (hopen : ¬ c.blocked rb) :
    0 ≤ (c.counted rb).size ∧ (c.counted rb).size ≤ rb.capacity ∧
      (c.counted rb).capacity = rb.capacity ∧
      ∀ d, d.available (c.counted rb) + (if c.waitsFor = d then 1 else 0) =
        d.available rb + if c.signals = d then 1 else 0 := by
  cases c with
  | put item =>
    change ¬ rb.size = rb.capacity at hopen
    have hcount : int32 (rb.size + 1) = rb.size + 1 := int32_of_nonneg (by omega) (by omega)
    change 0 ≤ int32 (rb.size + 1) ∧ int32 (rb.size + 1) ≤ rb.capacity ∧ _
    rw [hcount]
    refine ⟨by omega, by omega, rfl, fun d => ?_⟩
    cases d <;> simp only [Cond.available, Call.counted, Call.waitsFor, Call.signals, hcount,
      reduceCtorEq, if_true, if_false] <;> omega
  | get =>
    change ¬ rb.size = 0 at hopen
    have hcount : int32 (rb.size - 1) = rb.size - 1 := int32_of_nonneg (by omega) (by omega)
    change 0 ≤ int32 (rb.size - 1) ∧ int32 (rb.size - 1) ≤ rb.capacity ∧ _
    rw [hcount]
    refine ⟨by omega, by omega, rfl, fun d => ?_⟩
    cases d <;> simp only [Cond.available, Call.counted, Call.waitsFor, Call.signals, hcount,
      reduceCtorEq, if_true, if_false] <;> omega

/-- A caller takes the free mutex. -/
theorem WakeInv.acquire (h : WakeInv capacity s) {c : Call} (hfree : s.monitor.holder = none)
    (hp : (s.place p).2 = false) (howed : ∀ d, Owed d (s.place p) → c.waitsFor = d)
    (hpc : t.pc = Function.update s.pc p (.checking c)) (hrb : t.rb = s.rb)
    (hm : t.monitor = { s.monitor with holder := some p }) : WakeInv capacity t := by
  have hholding : t.monitor.HeldBy fun r => (t.pc r).Holding :=
    Monitor.HeldBy.moves_in (I := Pc.Holding) h.holding hfree (by rw [hm]) hpc trivial
  refine h.move hpc (by rw [hm]) hp (fun _ => nofun) hholding (by rw [hrb]) (.inl (by rw [hrb]))
    (fun _ hc => hc.elim) fun d _ => ?_
  rw [hrb]
  by_cases hold : Owed d (s.place p)
  · have hnew : Owed d (.checking c, false) := howed d hold
    rw [if_pos hold, if_pos hnew]
  · rw [if_neg hold]
    split <;> omega

/-- Every action keeps what is available owed. -/
theorem WakeInv.step (h : WakeInv capacity s) (hmax : capacity ≤ intMax)
    (hstep : Executed s p (s.pc p) t) : WakeInv capacity t := by
  generalize hpc : s.pc p = old at hstep
  have hawake : (∀ c, old ≠ .waiting c) → s.place p = (old, false) := fun hold => by
    rw [place_of_not_waiting (by rw [hpc]; exact hold), hpc]
  cases hstep with
  | called c =>
    have hplace := hawake fun _ => nofun
    have hholding : s.monitor.HeldBy fun r => (Function.update s.pc p (.locking c) r).Holding :=
      Monitor.HeldBy.stays (I := Pc.Holding) h.holding rfl rfl (by rw [hpc]; exact Iff.rfl)
    refine h.move rfl rfl (by rw [hplace]) (fun _ => nofun) hholding rfl (.inl rfl)
      (fun _ hc => hc.elim) fun d _ => ?_
    rw [hplace]
    exact le_rfl
  | locked c hfree =>
    have hplace := hawake fun _ => nofun
    exact h.acquire hfree (by rw [hplace]) (fun d hd => by rw [hplace] at hd; exact hd.elim)
      rfl rfl rfl
  | slept c hblocked => exact h.wait hpc hblocked rfl rfl rfl
  | passed c hopen =>
    refine h.proceed (by rw [hpc]; trivial) (q := .copying c) trivial rfl rfl rfl rfl ?_ ?_
    · rintro d rfl
      exact hopen
    · rw [hpc]
      exact fun d hd => hd
  | relocked c hnot hfree =>
    have hplace : s.place p = (.waiting c, false) := by
      simp only [State.place, hpc, hnot, decide_false]
    exact h.acquire hfree (by rw [hplace]) (fun d hd => by rw [hplace] at hd; exact hd.1)
      rfl rfl rfl
  | woken c hasleep => exact h.wake hasleep rfl rfl rfl rfl
  | copied c =>
    have hopen := h.admitted p c (by rw [hpc]; rfl)
    obtain ⟨hsize, hcapacity, -⟩ := record_kept s.rb c
    refine h.proceed (t := (s.transfer p c).goto p (.advancing c)) (q := .advancing c)
      (by rw [hpc]; trivial) trivial ?_ ?_ ?_ ?_ ?_ ?_
    · cases c <;> rfl
    · cases c <;> rfl
    · cases c <;> exact hsize
    · cases c <;> exact hcapacity
    · rintro d rfl
      exact hopen
    · rw [hpc]
      exact fun d hd => hd
  | advanced c =>
    have hopen := h.admitted p c (by rw [hpc]; rfl)
    obtain ⟨-, -, hsize, hcapacity, -⟩ := record_kept s.rb c
    refine h.proceed (by rw [hpc]; trivial) (q := .wrapping c) trivial rfl rfl hsize hcapacity ?_ ?_
    · rintro d rfl
      exact hopen
    · rw [hpc]
      exact fun d hd => hd
  | wrapped c =>
    have hopen := h.admitted p c (by rw [hpc]; rfl)
    obtain ⟨-, -, -, -, hsize, hcapacity⟩ := record_kept s.rb c
    refine h.proceed (by rw [hpc]; trivial) (q := .counting c) trivial rfl rfl hsize hcapacity ?_ ?_
    · rintro d rfl
      exact hopen
    · rw [hpc]
      exact fun d hd => hd
  | counted c =>
    have hplace := hawake fun _ => nofun
    have hinside : (s.pc p).Holding := by rw [hpc]; trivial
    have hopen := h.admitted p c (by rw [hpc]; rfl)
    obtain ⟨hlo, hhi, hcapacity, havailable⟩ := available_counted h.size_nonneg
      (h.capacity_eq ▸ h.size_le) (h.capacity_eq ▸ hmax) hopen
    have hholding : s.monitor.HeldBy fun r => (Function.update s.pc p (.unlocking c) r).Holding :=
      Monitor.HeldBy.stays (I := Pc.Holding) h.holding rfl rfl (iff_of_true trivial hinside)
    refine h.move rfl rfl (by rw [hplace]) (fun _ => nofun) hholding hcapacity
      (.inr ⟨(h.holding p).mp hinside, hlo, hhi⟩) (fun _ hc => hc.elim) fun d _ => ?_
    rw [hplace]
    exact (havailable d).le
  | unlocked c hheld =>
    have hplace := hawake fun _ => nofun
    have hholding : Monitor.HeldBy { s.monitor with holder := none } fun r =>
        (Function.update s.pc p (.signaling c) r).Holding :=
      Monitor.HeldBy.moves_out (I := Pc.Holding) h.holding hheld rfl rfl id
    refine h.move rfl rfl (by rw [hplace]) (fun _ => nofun) hholding rfl (.inl rfl)
      (fun _ hc => hc.elim) fun d _ => ?_
    rw [hplace]
    exact le_rfl
  | signaled c w m hm => exact h.signal hpc hm rfl rfl rfl

/-- Along every run what is available is owed while somebody sleeps. -/
theorem wakeInv_reachable {elemSize : ℤ} (hpos : 1 ≤ capacity) (hmax : capacity ≤ intMax)
    (hs : (channel π elemSize capacity).Reachable s) : WakeInv capacity s := by
  refine System.Reachable.invariant (S := channel π elemSize capacity) (I := WakeInv capacity) ?_
    (fun s a t _ h hstep => h.step hmax (next_executed hstep)) hs
  rintro s ⟨buf, itemPtr, rfl⟩
  refine ⟨fun p => ⟨fun hh => hh.elim, fun he => nomatch he⟩, rfl, le_rfl, ?_,
    fun p c hc => hc.elim, fun d p hp => absurd hp (Finset.notMem_empty p),
    fun d => ⟨0, Standing.none fun p hp => hp, fun hsome => ?_⟩⟩
  · change (0 : ℤ) ≤ capacity
    omega
  · exact absurd hsome Finset.not_nonempty_empty

end Steps

/-- With the mutex free and a caller asleep, there are no more elements or slots
than callers that were woken for them or have still to signal them. -/
def NoLostWakeup (s : State π) (c : Cond) : Prop :=
  s.monitor.holder = none → (s.monitor.asleep c).Nonempty → ∃ woken signaling : Finset π,
    (∀ p, p ∈ woken ↔ ∃ d, s.pc p = .waiting d ∧ d.waitsFor = c ∧ p ∉ s.monitor.asleep c) ∧
    (∀ p, p ∈ signaling ↔ ∃ d, s.pc p = .signaling d ∧ d.signals = c) ∧
    c.available s.rb ≤ woken.card + signaling.card

/-- The caller is inside `pthread_cond_wait`. -/
def Pc.isWaiting : Pc → Bool
  | .waiting _ => true
  | _ => false

section Conclusions

variable {capacity : ℤ} {s : State π}

/-- With the mutex free, elements and slots are owed to callers that were woken or
have still to signal. -/
theorem WakeInv.owed_free (h : WakeInv capacity s) (hfree : s.monitor.holder = none) (p : π)
    (c : Cond) : Owed c (s.place p) ↔
      (∃ d, s.pc p = .waiting d ∧ d.waitsFor = c ∧ p ∉ s.monitor.asleep c) ∨
      ∃ d, s.pc p = .signaling d ∧ d.signals = c := by
  have hout : ¬ (s.pc p).Holding := fun hin => by
    have hheld := (h.holding p).mp hin
    rw [hfree] at hheld
    cases hheld
  unfold State.place
  cases hpc : s.pc p with
  | waiting d =>
    constructor
    · rintro ⟨rfl, hawake⟩
      exact .inl ⟨d, rfl, rfl, of_decide_eq_false hawake⟩
    · rintro (⟨e, he, rfl, hawake⟩ | ⟨e, he, -⟩)
      · cases he
        exact ⟨rfl, decide_eq_false hawake⟩
      · cases he
  | signaling d =>
    constructor
    · rintro rfl
      exact .inr ⟨d, rfl, rfl⟩
    · rintro (⟨e, he, -⟩ | ⟨e, he, hsignals⟩)
      · cases he
      · cases he
        exact hsignals
  | idle => simp [Owed]
  | locking d => simp [Owed]
  | checking d | copying d | advancing d | wrapping d | counting d | unlocking d =>
    rw [hpc] at hout
    exact absurd trivial hout

end Conclusions

/-- For every capacity and every interleaving, no wake-up is lost, and the callers
are never all asleep while one of them could go on. -/
theorem mutex_channel_wakeups {elemSize capacity : ℤ} (hpos : 1 ≤ capacity)
    (hmax : capacity ≤ intMax) {s : State π}
    (hs : (channel π elemSize capacity).Reachable s) :
    (∀ c, NoLostWakeup s c) ∧
      ((∀ p, s.pc p = .idle ∨ ∃ c, p ∈ s.monitor.asleep c) →
        ∀ p d, s.pc p = .waiting d → d.blocked s.rb) := by
  have h := wakeInv_reachable hpos hmax hs
  constructor
  · intro c hfree hsome
    obtain ⟨n, ⟨T, hT, rfl⟩, hle⟩ := h.owed c
    refine ⟨T.filter fun p => (s.pc p).isWaiting = true,
      T.filter fun p => ¬ (s.pc p).isWaiting = true, fun p => ?_, fun p => ?_, ?_⟩
    · rw [Finset.mem_filter, hT, h.owed_free hfree]
      constructor
      · rintro ⟨hwoken | ⟨d, hpc, -⟩, hwaiting⟩
        · exact hwoken
        · rw [hpc] at hwaiting
          cases hwaiting
      · rintro ⟨d, hpc, hcond⟩
        exact ⟨.inl ⟨d, hpc, hcond⟩, by rw [hpc]; rfl⟩
    · rw [Finset.mem_filter, hT, h.owed_free hfree]
      constructor
      · rintro ⟨⟨d, hpc, -⟩ | hsignaling, hwaiting⟩
        · rw [hpc] at hwaiting
          exact absurd rfl hwaiting
        · exact hsignaling
      · rintro ⟨d, hpc, hcond⟩
        exact ⟨.inr ⟨d, hpc, hcond⟩, by rw [hpc]; exact nofun⟩
    · rw [← Nat.cast_add, Finset.card_filter_add_card_filter_not]
      exact hle hsome
  · intro hall p d hpd
    -- nobody holds the mutex, and nothing is owed to anybody
    have hasleep : p ∈ s.monitor.asleep d.waitsFor := by
      rcases hall p with hidle | ⟨c, hc⟩
      · rw [hpd] at hidle
        cases hidle
      · obtain ⟨e, he, rfl⟩ := h.asleep c p hc
        rw [hpd] at he
        cases he
        exact hc
    obtain ⟨n, hn, hle⟩ := h.owed d.waitsFor
    have hzero : n = 0 := by
      by_contra hne
      obtain ⟨r, hr⟩ := hn.exists_of_pos (Nat.pos_of_ne_zero hne)
      rcases hall r with hidle | ⟨c, hc⟩
      · rw [place_of_not_waiting (by rw [hidle]; exact fun _ => nofun), hidle] at hr
        exact hr
      · obtain ⟨e, he, rfl⟩ := h.asleep c r hc
        rw [place_asleep he hc] at hr
        cases hr.2
    have havailable := hle ⟨p, hasleep⟩
    rw [hzero] at havailable
    rw [blocked_iff]
    have hsize := h.size_nonneg
    have hroom := h.size_le
    have hcapacity := h.capacity_eq
    cases hd : d.waitsFor with
    | hasItems =>
      rw [hd] at havailable
      change s.rb.size ≤ 0 at havailable
      change s.rb.size = 0
      omega
    | hasSpace =>
      rw [hd] at havailable
      change s.rb.capacity - s.rb.size ≤ 0 at havailable
      change s.rb.capacity - s.rb.size = 0
      omega

/-- Two gets find the channel empty. A put wakes the first, which has not run yet, and
the second sleeps on. -/
theorem mutex_channel_wakeups_two_gets : ∃ s : State (Fin 3),
    s.pc 0 = .waiting .get ∧ 0 ∉ s.monitor.asleep .hasItems ∧ 1 ∈ s.monitor.asleep .hasItems ∧
    s.monitor.holder = none ∧ s.rb.size = 1 ∧ ∀ c, NoLostWakeup s c := by
  have hstart : (channel (Fin 3) 1 1).Reachable
      ⟨mcCreate 1 1 fun _ => 0#8, .new, fun _ => .idle, fun _ => [], [], []⟩ :=
    .start ⟨_, _, rfl⟩
  obtain ⟨s, hs, hfound⟩ := hstart.exists_of_any
    [(0, .call .get), (0, .run), (0, .run), (1, .call .get), (1, .run), (1, .run),
      (2, .call (.put [7#8])), (2, .run), (2, .run), (2, .run), (2, .run), (2, .run), (2, .run),
      (2, .run), (2, .signal (some 0))]
    (p := fun s => s.pc 0 = .waiting .get ∧ 0 ∉ s.monitor.asleep .hasItems ∧
      1 ∈ s.monitor.asleep .hasItems ∧ s.monitor.holder = none ∧ s.rb.size = 1)
    (by decide +kernel)
  obtain ⟨hpc, hwoken, hasleep, hfree, hsize⟩ := of_decide_eq_true hfound
  exact ⟨s, hpc, hwoken, hasleep, hfree, hsize, (mutex_channel_wakeups (by decide) (by decide) hs).1⟩

end SistemasOperativos.MutexChannel
