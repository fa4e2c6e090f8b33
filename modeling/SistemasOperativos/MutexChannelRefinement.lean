import SistemasOperativos.MutexChannel

/-!
# The mutex channel refines a bounded queue

The representation relates the two indexes, the counter and the bytes to the
list of pending elements. While a process holds the mutex after its copy, the
representation holds of the record that its remaining statements will leave.
Under that reading every statement but the copy keeps the pending elements, and
the copy is one put or one get of the abstract queue.
-/

namespace SistemasOperativos.MutexChannel

open TransitionRuns BoundedFifo ByteRing ConditionMonitor MachineInt
open ByteMemory (Byte)

/-- Sizes with which a channel works: both positive, and the product an `int`. -/
structure Shape where
  /-- Bytes in a slot. -/
  elemSize : ℤ
  /-- Number of slots. -/
  capacity : ℤ
  elemSize_pos : 1 ≤ elemSize
  capacity_pos : 1 ≤ capacity
  fits : elemSize * capacity ≤ intMax

/-- The capacity alone is an `int`. -/
theorem Shape.capacity_le (d : Shape) : d.capacity ≤ intMax := by
  have hmul := mul_le_mul_of_nonneg_right d.elemSize_pos (by linarith [d.capacity_pos] : 0 ≤ d.capacity)
  linarith [d.fits]

/-- The record holds the pending elements. -/
structure Represents (d : Shape) (rb : MemChannel) (pending : List (List Byte)) : Prop where
  capacity_eq : rb.capacity = d.capacity
  elemSize_eq : rb.elemSize = d.elemSize
  /-- The counter counts the pending elements. -/
  size_eq : rb.size = pending.length
  size_le : rb.size ≤ d.capacity
  iget_nonneg : 0 ≤ rb.iget
  iget_lt : rb.iget < d.capacity
  /-- The put index is the used slots ahead of the get index. -/
  iput_eq : rb.iput = (rb.iget + rb.size) % d.capacity
  /-- The elements stand in order from the get index on. -/
  stored : Stored rb.buf d.capacity d.elemSize rb.iget pending

section Represents

variable {d : Shape} {rb : MemChannel} {pending : List (List Byte)}

/-- The put index is always a slot. -/
theorem Represents.iput_range (h : Represents d rb pending) :
    0 ≤ rb.iput ∧ rb.iput < d.capacity := by
  have hcap := d.capacity_pos
  rw [h.iput_eq]
  exact ⟨Int.emod_nonneg _ (by omega), Int.emod_lt_of_pos _ (by omega)⟩

/-- No offset of a slot overflows. -/
theorem Represents.slot_eq (h : Represents d rb pending) {i : ℤ} (hlo : 0 ≤ i)
    (hhi : i < d.capacity) : rb.slot i = i * d.elemSize := by
  have helem := d.elemSize_pos
  have hinside := slot_inside (by omega : 0 ≤ d.elemSize) hhi
  have hnonneg : 0 ≤ i * d.elemSize := mul_nonneg hlo (by omega)
  have hfits := d.fits
  rw [mul_comm] at hfits
  rw [MemChannel.slot, h.elemSize_eq]
  exact int32_of_nonneg hnonneg (by omega)

/-- The statements of a put after its copy. -/
theorem put_settled (rb : MemChannel) (item : List Byte) {capacity : ℤ}
    (hcap : rb.capacity = capacity) (hmax : capacity ≤ intMax)
    (hlo : 0 ≤ rb.iput) (hhi : rb.iput < capacity) (hsize : 0 ≤ rb.size)
    (hroom : rb.size < capacity) :
    (Call.put item).counted ((Call.put item).wrapped ((Call.put item).advanced rb)) =
      { rb with iput := (rb.iput + 1) % capacity, size := rb.size + 1 } := by
  have hiput : int32 (rb.iput + 1) = rb.iput + 1 :=
    int32_of_nonneg (by omega) (by omega)
  have hcount : int32 (rb.size + 1) = rb.size + 1 :=
    int32_of_nonneg (by omega) (by omega)
  have hwrap := advance_wrapped hlo hhi
  simp only [Call.advanced, Call.wrapped, Call.counted, hiput, hcap]
  split at hwrap
  · next h => simp only [h, if_true, hcount, Int.emod_self]
  · next h => simp only [h, if_false, hcount, ← hwrap]

/-- The statements of a get after its copy. -/
theorem get_settled (rb : MemChannel) {capacity : ℤ}
    (hcap : rb.capacity = capacity) (hmax : capacity ≤ intMax)
    (hlo : 0 ≤ rb.iget) (hhi : rb.iget < capacity) (hsize : 0 < rb.size)
    (hfull : rb.size ≤ capacity) :
    Call.get.counted (Call.get.wrapped (Call.get.advanced rb)) =
      { rb with iget := (rb.iget + 1) % capacity, size := rb.size - 1 } := by
  have higet : int32 (rb.iget + 1) = rb.iget + 1 :=
    int32_of_nonneg (by omega) (by omega)
  have hcount : int32 (rb.size - 1) = rb.size - 1 :=
    int32_of_nonneg (by omega) (by omega)
  have hwrap := advance_wrapped hlo hhi
  simp only [Call.advanced, Call.wrapped, Call.counted, higet, hcap]
  split at hwrap
  · next h => simp only [h, if_true, hcount, Int.emod_self]
  · next h => simp only [h, if_false, hcount, ← hwrap]

/-- A put that was not blocked appends its element. -/
theorem Represents.put (h : Represents d rb pending) {item : List Byte}
    (hroom : rb.size ≠ rb.capacity) (hitem : (item.length : ℤ) = d.elemSize) :
    Represents d ((Call.put item).counted ((Call.put item).wrapped
      ((Call.put item).advanced ((Call.put item).copied rb)))) (pending ++ [item]) := by
  have hcap := d.capacity_pos
  have helem := d.elemSize_pos
  have hlt : rb.size < d.capacity := lt_of_le_of_ne h.size_le (h.capacity_eq ▸ hroom)
  have hsize := h.size_eq
  obtain ⟨hlo, hhi⟩ := h.iput_range
  have hslot := h.slot_eq hlo hhi
  rw [put_settled ((Call.put item).copied rb) item h.capacity_eq d.capacity_le hlo hhi
    (by show 0 ≤ rb.size; omega) hlt]
  simp only [Call.copied, hslot]
  exact {
    capacity_eq := h.capacity_eq
    elemSize_eq := h.elemSize_eq
    size_eq := by simp only [List.length_append, List.length_singleton]; omega
    size_le := by show rb.size + 1 ≤ d.capacity; omega
    iget_nonneg := h.iget_nonneg
    iget_lt := h.iget_lt
    iput_eq := by
      show (rb.iput + 1) % d.capacity = (rb.iget + (rb.size + 1)) % d.capacity
      rw [h.iput_eq, Int.emod_add_emod, Int.add_assoc]
    stored := by
      have hpush := h.stored.push (by omega) (by omega) (by omega : item.length = d.elemSize.toNat)
      rw [← hsize, ← h.iput_eq] at hpush
      exact hpush }

/-- A get that was not blocked reads and removes the oldest element. -/
theorem Represents.get {item : List Byte} (h : Represents d rb (item :: pending)) :
    rb.front = item ∧
      Represents d (Call.get.counted (Call.get.wrapped (Call.get.advanced rb))) pending := by
  have hcap := d.capacity_pos
  have hsize := h.size_eq
  rw [List.length_cons] at hsize
  have hle := h.size_le
  constructor
  · rw [MemChannel.front, h.slot_eq h.iget_nonneg h.iget_lt, h.elemSize_eq]
    exact h.stored.head h.iget_nonneg h.iget_lt
  · rw [get_settled rb h.capacity_eq d.capacity_le h.iget_nonneg h.iget_lt (by omega) hle]
    exact {
      capacity_eq := h.capacity_eq
      elemSize_eq := h.elemSize_eq
      size_eq := by show rb.size - 1 = pending.length; omega
      size_le := by show rb.size - 1 ≤ d.capacity; omega
      iget_nonneg := Int.emod_nonneg _ (by omega)
      iget_lt := Int.emod_lt_of_pos _ (by omega)
      iput_eq := by
        show rb.iput = ((rb.iget + 1) % d.capacity + (rb.size - 1)) % d.capacity
        rw [h.iput_eq, Int.emod_add_emod]
        congr 1
        omega
      stored := h.stored.tail }

/-- The slot that a put copies into is not the slot of a pending element. -/
theorem Represents.free_slot (h : Represents d rb pending) (hroom : rb.size ≠ rb.capacity)
    {i : ℤ} (hlo : 0 ≤ i) (hhi : i < rb.size) : (rb.iget + i) % d.capacity ≠ rb.iput := by
  have hlt : rb.size < d.capacity := lt_of_le_of_ne h.size_le (h.capacity_eq ▸ hroom)
  rw [h.iput_eq]
  exact wrapped_ne hhi (by omega)

end Represents

/-- A new channel is empty. -/
theorem represents_mcCreate (d : Shape) (buf : Buffer) :
    Represents d (mcCreate d.elemSize d.capacity buf) [] := by
  have hcap := d.capacity_pos
  exact {
    capacity_eq := rfl
    elemSize_eq := rfl
    size_eq := rfl
    size_le := by show (0 : ℤ) ≤ d.capacity; omega
    iget_nonneg := le_refl _
    iget_lt := by show (0 : ℤ) < d.capacity; omega
    iput_eq := by show (0 : ℤ) = (0 + 0) % d.capacity; simp
    stored := by intro i x hx; simp at hx }

/-- The record after the statements that a process still has to execute with
the mutex held. -/
def Pc.settle (rb : MemChannel) : Pc → MemChannel
  | .advancing c => c.counted (c.wrapped (c.advanced rb))
  | .wrapping c => c.counted (c.wrapped rb)
  | .counting c => c.counted rb
  | _ => rb

variable {π : Type*}

/-- The record once the holder of the mutex has settled it. -/
def State.settled (s : State π) : MemChannel :=
  match s.monitor.holder with
  | none => s.rb
  | some p => (s.pc p).settle s.rb

theorem State.settled_free {s : State π} (h : s.monitor.holder = none) : s.settled = s.rb := by
  rw [State.settled, h]

theorem State.settled_held {s : State π} {p : π} (h : s.monitor.holder = some p) :
    s.settled = (s.pc p).settle s.rb := by
  rw [State.settled, h]

variable [DecidableEq π]

/-- The channel and the abstract queue that it refines. -/
structure Refines (d : Shape) (s : State π) (f : Fifo (List Byte)) : Prop where
  /-- The mutex is held exactly inside the critical section. -/
  holding : ∀ p, (s.pc p).Holding ↔ s.monitor.holder = some p
  /-- Every put carries a whole element. -/
  wellFormed : ∀ p item, (s.pc p).call? = some (.put item) → (item.length : ℤ) = d.elemSize
  /-- A call copies only after its test let it pass. -/
  admitted : ∀ p c, s.pc p = .copying c → ¬ c.blocked s.rb
  represents : Represents d s.settled f.queue
  entered : f.entered = s.puts.map Prod.snd
  left : f.left = s.gets.map Prod.snd
  /-- A process keeps the element of its last get. -/
  returned : ∀ p e, (s.gets.filter fun g => decide (g.1 = p)).getLast? = some e → s.itemPtr p = e.2

/-- The record that the holder's remaining statements will leave. -/
theorem Refines.represents_held {d : Shape} {s : State π} {f : Fifo (List Byte)} {p : π}
    (h : Refines d s f) (hheld : s.monitor.holder = some p) :
    Represents d ((s.pc p).settle s.rb) f.queue := by
  rw [← State.settled_held hheld]
  exact h.represents

/-- A step of one process, from what it does to the mutex, the record and the
history. The other processes stay where they are. -/
theorem Refines.step {d : Shape} {s t : State π} {f g : Fifo (List Byte)} {p : π} {q : Pc}
    (h : Refines d s f) (hpc : t.pc = Function.update s.pc p q)
    (hholding : t.monitor.HeldBy fun r => (t.pc r).Holding)
    (hcall : ∀ item, q.call? = some (.put item) → (item.length : ℤ) = d.elemSize)
    (hopen : ∀ c, q = .copying c → ¬ c.blocked t.rb)
    (hrb : t.rb = s.rb ∨ s.monitor.holder = some p)
    (hrep : Represents d t.settled g.queue)
    (hentered : g.entered = t.puts.map Prod.snd) (hleft : g.left = t.gets.map Prod.snd)
    (hreturned : ∀ r e, (t.gets.filter fun g => decide (g.1 = r)).getLast? = some e →
      t.itemPtr r = e.2) : Refines d t g := by
  have hself_pc : t.pc p = q := by rw [hpc, Function.update_self]
  have hother_pc : ∀ r, r ≠ p → t.pc r = s.pc r := fun r hr => by
    rw [hpc, Function.update_of_ne hr]
  constructor
  · exact hholding
  · intro r item hitem
    rcases eq_or_ne r p with rfl | hr
    · exact hcall item (hself_pc ▸ hitem)
    · exact h.wellFormed r item (hother_pc r hr ▸ hitem)
  · intro r c hc
    rcases eq_or_ne r p with rfl | hr
    · exact hopen c (hself_pc.symm.trans hc)
    · -- another process about to copy holds the mutex, so this step left the record alone
      have hcs : s.pc r = .copying c := (hother_pc r hr).symm.trans hc
      have hholds : s.monitor.holder = some r := (h.holding r).mp (hcs ▸ trivial)
      have hsame : t.rb = s.rb := by
        rcases hrb with hsame | hp
        · exact hsame
        · exact absurd (Option.some.inj (hholds.symm.trans hp)) hr
      rw [hsame]
      exact h.admitted r c hcs
  · exact hrep
  · exact hentered
  · exact hleft
  · exact hreturned

/-- A process outside the critical section moves on outside it. -/
theorem Refines.outside {d : Shape} {s t : State π} {f : Fifo (List Byte)} {p : π} {q : Pc}
    (h : Refines d s f) (hp : ¬ (s.pc p).Holding) (hq : ¬ q.Holding)
    (ht : t = { s with monitor := t.monitor, pc := Function.update s.pc p q })
    (hholder : t.monitor.holder = s.monitor.holder)
    (hcall : ∀ item, q.call? = some (.put item) → (item.length : ℤ) = d.elemSize) :
    Refines d t f := by
  have hne : s.monitor.holder ≠ some p := fun hs => hp ((h.holding p).mpr hs)
  have hrb : t.rb = s.rb := by rw [ht]
  have hpc : t.pc = Function.update s.pc p q := by rw [ht]
  have hsettled : t.settled = s.settled := by
    unfold State.settled
    rw [hholder, hrb]
    cases hs : s.monitor.holder with
    | none => rfl
    | some r =>
      have hr : r ≠ p := fun he => hne (he ▸ hs)
      simp only [hpc, Function.update_of_ne hr]
  have hholding : t.monitor.HeldBy fun r => (t.pc r).Holding :=
    Monitor.HeldBy.stays (I := Pc.Holding) h.holding hholder hpc (iff_of_false hq hp)
  refine h.step (q := q) hpc hholding hcall ?_ (.inl hrb) (hsettled ▸ h.represents) ?_ ?_ ?_
  · intro c hc
    exact absurd (hc ▸ trivial) hq
  · rw [ht]
    exact h.entered
  · rw [ht]
    exact h.left
  · rw [ht]
    exact h.returned

/-- A process takes the free mutex. -/
theorem Refines.acquire {d : Shape} {s : State π} {f : Fifo (List Byte)} {p : π} {c : Call}
    {m : Monitor π Cond} (h : Refines d s f) (hc : (s.pc p).call? = some c)
    (hfree : s.monitor.holder = none) (hm : m.holder = some p) :
    Refines d ({ s with monitor := m }.goto p (.checking c)) f := by
  have hrep := h.represents
  rw [State.settled_free hfree] at hrep
  have hpc : ({ s with monitor := m }.goto p (.checking c)).pc =
      Function.update s.pc p (.checking c) := rfl
  have hholding := Monitor.HeldBy.moves_in (I := Pc.Holding) h.holding hfree hm hpc trivial
  refine h.step hpc hholding ?_ ?_ (.inl rfl) ?_ h.entered h.left h.returned
  · intro item hitem
    exact h.wellFormed p item (hc.trans hitem)
  · exact fun c' hc' => nomatch hc'
  · rw [State.settled_held (p := p) hm]
    show Represents d (((Function.update s.pc p (.checking c)) p).settle s.rb) f.queue
    rw [Function.update_self]
    exact hrep

/-- The holder gives the mutex up with the record settled. -/
theorem Refines.release {d : Shape} {s : State π} {f : Fifo (List Byte)} {p : π} {q : Pc}
    {m : Monitor π Cond} (h : Refines d s f) (hsettle : (s.pc p).settle s.rb = s.rb)
    (hheld : s.monitor.holder = some p) (hm : m.holder = none) (hq : ¬ q.Holding)
    (hcall : q.call? = (s.pc p).call?) :
    Refines d ({ s with monitor := m }.goto p q) f := by
  have hrep := h.represents_held hheld
  rw [hsettle] at hrep
  have hpc : ({ s with monitor := m }.goto p q).pc = Function.update s.pc p q := rfl
  have hholding := Monitor.HeldBy.moves_out (I := Pc.Holding) h.holding hheld hm hpc hq
  refine h.step hpc hholding ?_ ?_ (.inl rfl) ?_ h.entered h.left h.returned
  · intro item hitem
    exact h.wellFormed p item (hcall ▸ hitem)
  · intro c hc
    exact absurd (hc ▸ trivial) hq
  · rw [State.settled_free hm]
    exact hrep

/-- The holder goes on inside the critical section, and changes the record. -/
theorem Refines.proceed {d : Shape} {s t : State π} {f g : Fifo (List Byte)} {p : π}
    (h : Refines d s f) (q : Pc) (hheld : s.monitor.holder = some p) (hq : q.Holding)
    (hpc : t.pc = Function.update s.pc p q) (hmonitor : t.monitor = s.monitor)
    (hcall : q.call? = (s.pc p).call?) (hopen : ∀ c, q = .copying c → ¬ c.blocked t.rb)
    (hrep : Represents d (q.settle t.rb) g.queue)
    (hentered : g.entered = t.puts.map Prod.snd) (hleft : g.left = t.gets.map Prod.snd)
    (hreturned : ∀ r e, (t.gets.filter fun g => decide (g.1 = r)).getLast? = some e →
      t.itemPtr r = e.2) : Refines d t g := by
  have hholder : t.monitor.holder = some p := by rw [hmonitor, hheld]
  have hholding : t.monitor.HeldBy fun r => (t.pc r).Holding :=
    Monitor.HeldBy.stays (I := Pc.Holding) h.holding (congrArg _ hmonitor) hpc
      (iff_of_true hq ((h.holding p).mpr hheld))
  refine h.step hpc hholding ?_ hopen (.inr hheld) ?_ hentered hleft hreturned
  · intro item hitem
    exact h.wellFormed p item (hcall ▸ hitem)
  · rw [State.settled_held hholder, hpc, Function.update_self]
    exact hrep

/-- The last of a process's entries after one more entry of some process. -/
theorem getLast_filter_append {gets : List (π × List Byte)} {p r : π} {x : List Byte}
    {e : π × List Byte}
    (h : ((gets ++ [(p, x)]).filter fun g => decide (g.1 = r)).getLast? = some e) :
    (r = p ∧ e = (p, x)) ∨
      (r ≠ p ∧ (gets.filter fun g => decide (g.1 = r)).getLast? = some e) := by
  rw [List.filter_append] at h
  by_cases hr : r = p
  · left
    simp only [hr, decide_true, List.filter_cons_of_pos, List.filter_nil,
      List.getLast?_concat, Option.some.injEq] at h
    exact ⟨hr, h.symm⟩
  · right
    rw [List.filter_cons_of_neg (by simpa using Ne.symm hr), List.filter_nil, List.append_nil] at h
    exact ⟨hr, h⟩

/-- The copy of a put is a put of the abstract queue. -/
theorem Refines.copy_put {d : Shape} {s : State π} {f : Fifo (List Byte)} {p : π}
    {item : List Byte} (h : Refines d s f) (hpc : s.pc p = .copying (.put item)) :
    ∃ g, (fifo (List Byte) d.capacity.toNat).Steps f g ∧
      Refines d ((s.transfer p (.put item)).goto p (.advancing (.put item))) g := by
  have hheld : s.monitor.holder = some p := (h.holding p).mp (hpc ▸ trivial)
  have hrep : Represents d s.rb f.queue := by
    have hsettled := h.represents_held hheld
    rw [hpc] at hsettled
    exact hsettled
  have hroom : s.rb.size ≠ s.rb.capacity := h.admitted p _ hpc
  have hitem := h.wellFormed p item (by rw [hpc]; rfl)
  have hlt : s.rb.size < d.capacity := lt_of_le_of_ne hrep.size_le (hrep.capacity_eq ▸ hroom)
  have hlen := hrep.size_eq
  refine ⟨_, Fifo.put_step (by omega) item, ?_⟩
  refine h.proceed (.advancing (.put item)) hheld trivial rfl rfl (by rw [hpc]; rfl)
    (fun c hc => nomatch hc) (hrep.put hroom hitem) ?_ h.left h.returned
  show f.entered ++ [item] = (s.puts ++ [(p, item)]).map Prod.snd
  rw [h.entered, List.map_append, List.map_singleton]

/-- The copy of a get is a get of the abstract queue. -/
theorem Refines.copy_get {d : Shape} {s : State π} {f : Fifo (List Byte)} {p : π}
    (h : Refines d s f) (hpc : s.pc p = .copying .get) :
    ∃ g, (fifo (List Byte) d.capacity.toNat).Steps f g ∧
      Refines d ((s.transfer p .get).goto p (.advancing .get)) g := by
  have hheld : s.monitor.holder = some p := (h.holding p).mp (hpc ▸ trivial)
  have hrep : Represents d s.rb f.queue := by
    have hsettled := h.represents_held hheld
    rw [hpc] at hsettled
    exact hsettled
  have hsome : s.rb.size ≠ 0 := h.admitted p _ hpc
  cases hqueue : f.queue with
  | nil =>
    have hlen := hrep.size_eq
    rw [hqueue] at hlen
    exact absurd hlen hsome
  | cons x rest =>
    rw [hqueue] at hrep
    obtain ⟨hfront, hrest⟩ := Represents.get hrep
    refine ⟨_, Fifo.get_step hqueue, ?_⟩
    refine h.proceed (.advancing .get) hheld trivial rfl rfl (by rw [hpc]; rfl)
      (fun c hc => nomatch hc) hrest h.entered ?_ ?_
    · show f.left ++ [x] = (s.gets ++ [(p, s.rb.front)]).map Prod.snd
      rw [h.left, List.map_append, List.map_singleton, hfront]
    · intro r e he
      show Function.update s.itemPtr p s.rb.front r = e.2
      rcases getLast_filter_append he with ⟨rfl, rfl⟩ | ⟨hr, he⟩
      · rw [Function.update_self]
      · rw [Function.update_of_ne hr]
        exact h.returned r e he

/-- Settling does not change the size of the elements. -/
theorem settle_elemSize (rb : MemChannel) (q : Pc) : (q.settle rb).elemSize = rb.elemSize := by
  have hadvanced : ∀ (c : Call) (rb : MemChannel), (c.advanced rb).elemSize = rb.elemSize :=
    fun c _ => by cases c <;> rfl
  have hwrapped : ∀ (c : Call) (rb : MemChannel), (c.wrapped rb).elemSize = rb.elemSize :=
    fun c _ => by cases c <;> simp only [Call.wrapped] <;> split <;> rfl
  have hcounted : ∀ (c : Call) (rb : MemChannel), (c.counted rb).elemSize = rb.elemSize :=
    fun c _ => by cases c <;> rfl
  cases q <;> simp only [Pc.settle, hadvanced, hwrapped, hcounted]

/-- The element size never changes. -/
theorem Refines.elemSize_eq {d : Shape} {s : State π} {f : Fifo (List Byte)}
    (h : Refines d s f) : s.rb.elemSize = d.elemSize := by
  have hsize := h.represents.elemSize_eq
  cases hs : s.monitor.holder with
  | none => rw [State.settled_free hs] at hsize; exact hsize
  | some p => rw [State.settled_held hs, settle_elemSize] at hsize; exact hsize

/-- Every action is matched by the abstract queue. -/
theorem Refines.executed {d : Shape} {s t : State π} {f : Fifo (List Byte)} {p : π}
    (h : Refines d s f) (hstep : Executed s p (s.pc p) t) :
    ∃ g, (fifo (List Byte) d.capacity.toNat).Steps f g ∧ Refines d t g := by
  have hheld : ∀ q, s.pc p = q → q.Holding → s.monitor.holder = some p :=
    fun q hq hh => (h.holding p).mp (hq ▸ hh)
  generalize hpc : s.pc p = old at hstep
  cases hstep with
  | called c hwf =>
    refine ⟨f, .refl, h.outside (q := .locking c) (by rw [hpc]; exact id) id rfl rfl ?_⟩
    intro item hitem
    rw [Option.some.inj hitem] at hwf
    rw [← h.elemSize_eq]
    exact hwf
  | locked c hfree => exact ⟨f, .refl, h.acquire (by rw [hpc]; rfl) hfree rfl⟩
  | slept c hblocked hp => exact ⟨f, .refl, h.release (by rw [hpc]; rfl) hp rfl id (by rw [hpc]; rfl)⟩
  | passed c hopen =>
    have hp := hheld _ hpc trivial
    have hrep := h.represents_held hp
    rw [hpc] at hrep
    refine ⟨f, .refl, h.proceed (.copying c) hp trivial rfl rfl (by rw [hpc]; rfl) ?_ hrep h.entered
      h.left h.returned⟩
    intro c' hc'
    rw [← Pc.copying.inj hc']
    exact hopen
  | relocked c hawake hfree => exact ⟨f, .refl, h.acquire (by rw [hpc]; rfl) hfree rfl⟩
  | woken c hasleep =>
    have hout : ¬ (s.pc p).Holding := by rw [hpc]; exact id
    exact ⟨f, .refl, h.outside hout hout (by rw [Function.update_eq_self]) rfl (h.wellFormed p)⟩
  | copied c =>
    cases c with
    | put item => exact h.copy_put hpc
    | get => exact h.copy_get hpc
  | advanced c | wrapped c | counted c =>
    -- these statements leave the settled record as it is
    have hp := hheld _ hpc trivial
    have hrep := h.represents_held hp
    rw [hpc] at hrep
    exact ⟨f, .refl, h.proceed _ hp (by exact trivial) rfl rfl (by rw [hpc]; rfl)
      (fun c hc => nomatch hc) hrep h.entered h.left h.returned⟩
  | unlocked c hp => exact ⟨f, .refl, h.release (by rw [hpc]; rfl) hp rfl id (by rw [hpc]; rfl)⟩
  | signaled c w m hm =>
    exact ⟨f, .refl, h.outside (q := .idle) (by rw [hpc]; exact id) id rfl
      (Monitor.signal_holder hm) (fun _ hitem => nomatch hitem)⟩

/-- The channel refines the bounded queue. -/
theorem simulation (π : Type*) [DecidableEq π] (d : Shape) :
    Simulation (channel π d.elemSize d.capacity) (fifo (List Byte) d.capacity.toNat)
      (Refines d) where
  init := by
    rintro s ⟨buf, itemPtr, rfl⟩
    refine ⟨⟨[], [], []⟩, rfl, ?_⟩
    exact {
      holding := fun p => ⟨fun hh => hh.elim, fun he => nomatch he⟩
      wellFormed := fun p item hitem => nomatch hitem
      admitted := fun p c hc => nomatch hc
      represents := represents_mcCreate d buf
      entered := rfl
      left := rfl
      returned := fun p e he => nomatch he }
  step := fun _ _ _ _ _ h hstep => h.executed (next_executed hstep)

/-- What was put and not yet got is what a process about to copy finds. -/
theorem copying_represents {d : Shape} {s : State π} {p : π} {c : Call} {pending : List (List Byte)}
    (hs : (channel π d.elemSize d.capacity).Reachable s) (hpc : s.pc p = .copying c)
    (hpending : s.puts.map Prod.snd = s.gets.map Prod.snd ++ pending) :
    Represents d s.rb pending ∧ ¬ c.blocked s.rb := by
  obtain ⟨f, hf, h⟩ := (simulation π d).reachable hs
  have hqueue : f.queue = pending := by
    have hhistory := (delivering hf).history
    rw [h.entered, h.left, hpending] at hhistory
    exact (List.append_cancel_left hhistory).symm
  have hheld : s.monitor.holder = some p := (h.holding p).mp (hpc ▸ trivial)
  have hsettled := h.represents_held hheld
  rw [hpc, hqueue] at hsettled
  exact ⟨hsettled, h.admitted p c hpc⟩

/-- A put that is about to copy has space. -/
theorem copying_put_room {d : Shape} {s : State π} {p : π} {item : List Byte}
    {pending : List (List Byte)} (hs : (channel π d.elemSize d.capacity).Reachable s)
    (hpc : s.pc p = .copying (.put item))
    (hpending : s.puts.map Prod.snd = s.gets.map Prod.snd ++ pending) :
    (pending.length : ℤ) < d.capacity := by
  obtain ⟨hrep, hroom⟩ := copying_represents hs hpc hpending
  have hne : s.rb.size ≠ d.capacity := hrep.capacity_eq ▸ hroom
  have hsize := hrep.size_eq
  have hle := hrep.size_le
  omega

/-- A get that is about to copy reads the oldest element. -/
theorem copying_get_front {d : Shape} {s : State π} {p : π} {pending : List (List Byte)}
    (hs : (channel π d.elemSize d.capacity).Reachable s) (hpc : s.pc p = .copying .get)
    (hpending : s.puts.map Prod.snd = s.gets.map Prod.snd ++ pending) :
    ∃ rest, pending = s.rb.front :: rest := by
  obtain ⟨hrep, hsome⟩ := copying_represents hs hpc hpending
  cases pending with
  | nil => exact absurd hrep.size_eq hsome
  | cons x rest => exact ⟨rest, by rw [hrep.get.1]⟩

/-- Two processes are never in the critical section. -/
theorem holding_unique {d : Shape} {s : State π} {p q : π}
    (hs : (channel π d.elemSize d.capacity).Reachable s) (hp : (s.pc p).Holding)
    (hq : (s.pc q).Holding) : p = q := by
  obtain ⟨f, -, h⟩ := (simulation π d).reachable hs
  exact Monitor.HeldBy.unique h.holding hp hq

/-- Only the copy changes bytes, in the buffer or at an `item_ptr`. -/
theorem Executed.copies {s t : State π} {p : π} {old : Pc} (h : Executed s p old t) :
    (t.rb.buf = s.rb.buf ∧ t.itemPtr = s.itemPtr) ∨
      ∃ c, old = .copying c ∧ t = (s.transfer p c).goto p (.advancing c) := by
  cases h with
  | copied c => exact .inr ⟨c, rfl, rfl⟩
  | advanced c => exact .inl ⟨by cases c <;> rfl, rfl⟩
  | wrapped c =>
    refine .inl ⟨?_, rfl⟩
    show (c.wrapped s.rb).buf = s.rb.buf
    cases c <;> simp only [Call.wrapped] <;> split <;> rfl
  | counted c => exact .inl ⟨by cases c <;> rfl, rfl⟩
  | _ => exact .inl ⟨rfl, rfl⟩

/-- What one step of a process copies. -/
structure CopiesOwnSlot (d : Shape) (s t : State π) (p : π) : Prop where
  /-- Bytes of the buffer only change by the copy of a put, in the slot of the
  put index, which is no pending element's slot. -/
  put : ∀ x, t.rb.buf x ≠ s.rb.buf x →
    (∃ item, s.pc p = .copying (.put item)) ∧
      0 ≤ s.rb.iput ∧ s.rb.iput < d.capacity ∧
      s.rb.iput * d.elemSize ≤ x ∧ x < s.rb.iput * d.elemSize + d.elemSize ∧
      ∀ i, 0 ≤ i → i < s.rb.size → (s.rb.iget + i) % d.capacity ≠ s.rb.iput
  /-- The bytes at an `item_ptr` only change by the copy of its own process's
  get, and come from the slot of the get index. -/
  get : ∀ r, t.itemPtr r ≠ s.itemPtr r →
    r = p ∧ s.pc p = .copying .get ∧ 0 ≤ s.rb.iget ∧ s.rb.iget < d.capacity ∧
      t.itemPtr r = slice s.rb.buf (s.rb.iget * d.elemSize) d.elemSize.toNat

/-- Every step copies within one slot. -/
theorem Refines.copiesOwnSlot {d : Shape} {s t : State π} {f : Fifo (List Byte)} {p : π}
    {a : Action π} (h : Refines d s f) (hnext : s.next (p, a) = some t) :
    CopiesOwnSlot d s t p := by
  rcases (next_executed hnext).copies with ⟨hbuf, hptr⟩ | ⟨c, hpc, rfl⟩
  · constructor
    · intro x hx
      exact absurd (congrFun hbuf x) hx
    · intro r hr
      exact absurd (congrFun hptr r) hr
  · have hheld : s.monitor.holder = some p := (h.holding p).mp (hpc ▸ trivial)
    have hrep : Represents d s.rb f.queue := by
      have hsettled := h.represents_held hheld
      rw [hpc] at hsettled
      exact hsettled
    cases c with
    | put item =>
      obtain ⟨hlo, hhi⟩ := hrep.iput_range
      have hlen := h.wellFormed p item (by rw [hpc]; rfl)
      constructor
      · intro x hx
        have hinside : s.rb.slot s.rb.iput ≤ x ∧ x < s.rb.slot s.rb.iput + item.length := by
          by_contra hout
          exact hx (copy_outside (by omega))
        rw [hrep.slot_eq hlo hhi, hlen] at hinside
        exact ⟨⟨item, hpc⟩, hlo, hhi, hinside.1, hinside.2,
          fun i => hrep.free_slot (h.admitted p _ hpc)⟩
      · intro r hr
        exact absurd rfl hr
    | get =>
      constructor
      · intro x hx
        exact absurd rfl hx
      · intro r hr
        have hrp : r = p := by
          by_contra hne
          exact hr (Function.update_of_ne hne _ _)
        refine ⟨hrp, hpc, hrep.iget_nonneg, hrep.iget_lt, ?_⟩
        show Function.update s.itemPtr p s.rb.front r = _
        rw [hrp, Function.update_self, MemChannel.front,
          hrep.slot_eq hrep.iget_nonneg hrep.iget_lt, hrep.elemSize_eq]

/-- The record when the mutex is free. -/
structure InOrder (d : Shape) (s : State π) (pending : List (List Byte)) : Prop where
  size_range : 0 ≤ s.rb.size ∧ s.rb.size ≤ d.capacity
  iget_range : 0 ≤ s.rb.iget ∧ s.rb.iget < d.capacity
  iput_range : 0 ≤ s.rb.iput ∧ s.rb.iput < d.capacity
  iput_eq : s.rb.iput = (s.rb.iget + s.rb.size) % d.capacity
  /-- As many elements are pending as the counter says. -/
  length_eq : (pending.length : ℤ) = s.rb.size
  /-- They stand byte for byte in the slots from the get index on. -/
  slots : ∀ (i : ℕ) (hi : i < pending.length),
    slice s.rb.buf ((s.rb.iget + i) % d.capacity * d.elemSize) d.elemSize.toNat = pending[i]
  /-- They are what was put and not yet got, in order. -/
  delivered : s.puts.map Prod.snd = s.gets.map Prod.snd ++ pending

/-- A channel that delivers as a bounded queue. -/
structure Delivers (d : Shape) (s : State π) : Prop where
  /-- The elements copied in and out are those of a run of the bounded queue,
  and with the mutex free the record holds what is pending in it. -/
  queue : ∃ f : Fifo (List Byte), (fifo (List Byte) d.capacity.toNat).Reachable f ∧
    f.entered = s.puts.map Prod.snd ∧ f.left = s.gets.map Prod.snd ∧
    (s.monitor.holder = none → InOrder d s f.queue)
  /-- The elements got are the first ones put, in order and each once. -/
  prefix_put : s.gets.map Prod.snd <+: s.puts.map Prod.snd
  /-- What `mc_get` returned at a process's `item_ptr` is its last get. -/
  returned : ∀ p e, (s.gets.filter fun g => decide (g.1 = p)).getLast? = some e → s.itemPtr p = e.2
  /-- From here, every copy stays in its own slot. -/
  ownSlot : ∀ p a t, (channel π d.elemSize d.capacity).step s (p, a) t → CopiesOwnSlot d s t p

/-- For all sizes whose product is an `int` and every interleaving, the channel
delivers as a bounded queue. -/
theorem mutex_channel_delivers (d : Shape) {s : State π}
    (hs : (channel π d.elemSize d.capacity).Reachable s) : Delivers d s := by
  obtain ⟨f, hf, h⟩ := (simulation π d).reachable hs
  have hdelivering := delivering hf
  have hhistory : s.puts.map Prod.snd = s.gets.map Prod.snd ++ f.queue := by
    rw [← h.entered, ← h.left]
    exact hdelivering.history
  constructor
  · refine ⟨f, hf, h.entered, h.left, fun hfree => ?_⟩
    have hrep := h.represents
    rw [State.settled_free hfree] at hrep
    have hsize := hrep.size_eq
    exact {
      size_range := ⟨by omega, hrep.size_le⟩
      iget_range := ⟨hrep.iget_nonneg, hrep.iget_lt⟩
      iput_range := hrep.iput_range
      iput_eq := hrep.iput_eq
      length_eq := hsize.symm
      slots := fun i hi => hrep.stored i _ (List.getElem?_eq_getElem hi)
      delivered := hhistory }
  · exact ⟨f.queue, hhistory.symm⟩
  · exact h.returned
  · exact fun p a t hstep => h.copiesOwnSlot hstep

/-- Two slots of one byte. -/
def twoSlots : Shape := ⟨1, 2, by decide, by decide, by decide⟩

/-- A call of `mc_put` or `mc_get` that does not sleep and wakes nobody. -/
def wholeCall (p : Bool) (c : Call) : List (Bool × Action Bool) :=
  (p, .call c) :: List.replicate 7 (p, .run) ++ [(p, .signal none)]

/-- One process puts three bytes, the third in the slot that the first one had. The
other process gets the first two. -/
theorem mutex_channel_delivers_two_gets : ∃ s : State Bool,
    s.puts.map Prod.snd = [[7#8], [8#8], [9#8]] ∧ s.gets.map Prod.snd = [[7#8], [8#8]] ∧
    s.rb.iput = 1 ∧ s.monitor.holder = none ∧ s.itemPtr false = [8#8] ∧ Delivers twoSlots s := by
  have hstart : (channel Bool twoSlots.elemSize twoSlots.capacity).Reachable
      ⟨mcCreate 1 2 fun _ => 0#8, .new, fun _ => .idle, fun _ => [], [], []⟩ :=
    .start ⟨_, _, rfl⟩
  obtain ⟨s, hs, hlast⟩ := hstart.exists_of_any
    (wholeCall true (.put [7#8]) ++ wholeCall false .get ++ wholeCall true (.put [8#8]) ++
      wholeCall true (.put [9#8]) ++ wholeCall false .get)
    (p := fun s => s.puts.map Prod.snd = [[7#8], [8#8], [9#8]] ∧
      s.gets = [(false, [7#8]), (false, [8#8])] ∧ s.rb.iput = 1 ∧ s.monitor.holder = none)
    (by decide +kernel)
  obtain ⟨hputs, hgets, hiput, hfree⟩ := of_decide_eq_true hlast
  have hdelivers := mutex_channel_delivers twoSlots hs
  refine ⟨s, hputs, by rw [hgets]; rfl, hiput, hfree, ?_, hdelivers⟩
  exact hdelivers.returned false (false, [8#8]) (by rw [hgets]; rfl)

end SistemasOperativos.MutexChannel
