import SistemasOperativos.ChannelNames
import SistemasOperativos.MutexChannel
import SistemasOperativos.SemaphoreChannel

/-!
# The slots of a memory channel and the region it is mapped in

Both implementations of `mc_create` compute the size of the region in `int`,
from the product of two parameters that nothing restricts. A size that wrapped
to a negative one is refused, but one that wrapped all the way to a positive
one is mapped, and most slots then lie outside.
-/

namespace SistemasOperativos.ChannelSlots

open ByteRing ChannelNames MachineInt

variable {ν : Type*} [DecidableEq ν]

/-- Every slot lies inside a region, and different slots share no byte. Slots start at an
offset from the base of the buffer, which itself lies at an offset in the region. -/
structure SlotsFit (bufOffset length elemSize : ℤ) (capacity : ℕ) (slot : ℕ → ℤ) : Prop where
  inside : ∀ i < capacity, 0 ≤ bufOffset + slot i ∧ bufOffset + slot i + elemSize ≤ length
  disjoint : ∀ i < capacity, ∀ j < capacity, i ≠ j →
    slot i + elemSize ≤ slot j ∨ slot j + elemSize ≤ slot i

/-- Slots side by side in a region that has room for all of them. -/
theorem slotsFit_of_room {bufOffset length : ℤ} {elemSize capacity : ℕ} {slot : ℕ → ℤ}
    (hslot : ∀ i < capacity, slot i = i * elemSize) (hbuf : 0 ≤ bufOffset)
    (hroom : bufOffset + elemSize * capacity ≤ length) :
    SlotsFit bufOffset length elemSize capacity slot := by
  constructor
  · intro i hi
    have hlow : (0 : ℤ) ≤ i * elemSize := by positivity
    have hinside := slot_inside (by positivity : (0 : ℤ) ≤ elemSize)
      (by exact_mod_cast hi : (i : ℤ) < capacity)
    rw [hslot i hi]
    have hcomm := mul_comm (capacity : ℤ) elemSize
    omega
  · intro i hi j hj hij
    rw [hslot i hi, hslot j hj]
    exact slot_disjoint (by positivity) (by exact_mod_cast hij)

/-- A region of at most `intMax` bytes does not hold more than `intMax` bytes of slots, if
the slots that start below `intMax` start where they should. -/
theorem not_slotsFit_of_large {bufOffset length : ℤ} {elemSize capacity : ℕ} {slot : ℕ → ℤ}
    (hslot : ∀ i < capacity, i * elemSize ≤ intMax → slot i = i * elemSize) (helem : 0 < elemSize)
    (hbuf : 0 ≤ bufOffset) (hlength : length ≤ intMax) (hlarge : intMax < elemSize * capacity) :
    ¬ SlotsFit bufOffset length elemSize capacity slot := by
  intro hfit
  -- the first slot that starts after the last start that fits
  obtain ⟨i, hstart, hnext⟩ : ∃ i : ℕ, length - bufOffset - elemSize < i * elemSize ∧
      (i * elemSize : ℤ) ≤ max 0 (length - bufOffset) := by
    rcases lt_or_ge (length - bufOffset - elemSize) 0 with hneg | hnonneg
    · exact ⟨0, by simpa using hneg, by simp⟩
    · have hdiv := Int.emod_add_mul_ediv (length - bufOffset - elemSize) elemSize
      have hmod := Int.emod_nonneg (length - bufOffset - elemSize)
        (by omega : (elemSize : ℤ) ≠ 0)
      have hless := Int.emod_lt_of_pos (length - bufOffset - elemSize)
        (by omega : (0 : ℤ) < elemSize)
      have hquot := Int.ediv_nonneg hnonneg (by omega : (0 : ℤ) ≤ elemSize)
      refine ⟨((length - bufOffset - elemSize) / elemSize + 1).toNat, ?_, ?_⟩
      all_goals
        rw [Int.toNat_of_nonneg (by omega), add_mul, one_mul, mul_comm]
        omega
  have hi : i < capacity := by
    have hmul : (i * elemSize : ℤ) < capacity * elemSize := by
      have hcomm := mul_comm (capacity : ℤ) elemSize
      have hpos : (0 : ℤ) < intMax := by decide
      omega
    exact_mod_cast lt_of_mul_lt_mul_right hmul (by positivity)
  have hrange : (i * elemSize : ℤ) ≤ intMax := by
    have hpos : (0 : ℤ) < intMax := by decide
    omega
  have hinside := (hfit.inside i hi).2
  rw [hslot i hi hrange] at hinside
  omega

/-- The size of a region, from the size of the record and the bytes of the slots. -/
theorem int32_pos_range {record : ℤ} {bytes : ℕ} (hrecord : record ≤ 2 ^ 30)
    (hpos : 0 < int32 (int32 bytes + record)) (hover : intMax < bytes + record) :
    intMax < bytes ∧ int32 (int32 bytes + record) ≤ intMax := by
  unfold int32 intMax at *
  omega

theorem int32_eq_of_fits {record : ℤ} {bytes : ℕ} (hrecord : 0 ≤ record) (hfits : bytes + record ≤ intMax) :
    int32 (int32 bytes + record) = bytes + record := by
  unfold int32 intMax at *
  omega

/-- Slots that do not wrap within `int` fit into a region exactly if its size did not wrap. -/
theorem slotsFit_iff {bufOffset record : ℤ} {elemSize capacity : ℕ} {slot : ℕ → ℤ}
    (hslot : ∀ i < capacity, i * elemSize ≤ intMax → slot i = i * elemSize) (helem : 0 < elemSize)
    (hlow : 0 ≤ bufOffset) (hbuf : bufOffset ≤ record) (hrecord : record ≤ 2 ^ 30)
    (hpos : 0 < int32 (int32 (elemSize * capacity) + record)) :
    SlotsFit bufOffset (int32 (int32 (elemSize * capacity) + record)) elemSize capacity slot ↔
      elemSize * capacity + record ≤ intMax := by
  have hcast : ((elemSize * capacity : ℕ) : ℤ) = elemSize * capacity := by push_cast; rfl
  rw [← hcast] at hpos ⊢
  constructor
  · intro hfit
    by_contra hover
    obtain ⟨hlarge, hlength⟩ := int32_pos_range hrecord hpos (not_le.mp hover)
    rw [hcast] at hlarge
    exact not_slotsFit_of_large hslot helem (by omega) hlength hlarge hfit
  · intro hfits
    rw [int32_eq_of_fits (hlow.trans hbuf) hfits]
    refine slotsFit_of_room (fun i hi => hslot i hi ?_) (by omega) (by rw [hcast]; omega)
    have hinside := slot_inside (by positivity : (0 : ℤ) ≤ elemSize)
      (by exact_mod_cast hi : (i : ℤ) < capacity)
    have hcomm := mul_comm (capacity : ℤ) elemSize
    omega

/-! ## The two implementations -/

/-- Offset of `buf` in the record of the channel with a mutex. -/
abbrev bufOffset : ℤ := 160

/-- Offset of `buffer` in the record of the channel with semaphores. -/
abbrev bufferOffset : ℤ := 104

/-- `sizeof(mem_channel_t)` for the channel with semaphores. -/
abbrev sizeofSemChannel : ℤ := 112

/-- `mc_size`. -/
def mcSize (elemSize capacity : ℤ) : ℤ := int32 (int32 (elemSize * capacity) + sizeofSemChannel)

/-- `mc_create` of the channel with semaphores. Where nothing is mapped, `sem_init` gets an
address in the null page, and the call does not return. -/
def mcCreateSem (s : ChannelNames.State ν) (pid : ℕ) (name : ν) (elemSize capacity : ℤ) :
    Option ℕ × ChannelNames.State ν :=
  match s.shmemCreate pid name (mcSize elemSize capacity) with
  | (none, s) => (none, s)
  | (some rb, s) =>
    (some rb, { s with
      shm := Function.update s.shm name ((s.shm name).map fun o =>
        { o with elemSize := elemSize, capacity := capacity, owner := pid })
      creator := Function.update s.creator name (some pid) })

/-- A region that was mapped has the size that was asked for, which is positive. -/
theorem shmemCreate_mapped {s t : ChannelNames.State ν} {pid rb : ℕ} {name : ν} {size : ℤ}
    (h : s.shmemCreate pid name size = (some rb, t)) :
    0 < size ∧ ∃ o, t.shm name = some o ∧ o.length = size := by
  unfold State.shmemCreate State.internalMap at h
  split at h
  · cases h
  · split at h
    · cases h
    · cases h
      refine ⟨by omega, ?_⟩
      have hexists : ∃ o, (s.shmOpenCreate name).shm name = some o := by
        unfold State.shmOpenCreate
        cases ho : s.shm name with
        | none => exact ⟨_, Function.update_self _ _ _⟩
        | some o => exact ⟨o, ho⟩
      obtain ⟨o, ho⟩ := hexists
      exact ⟨{ o with length := size }, by simp [State.ftruncate, ho], rfl⟩

/-- Writing the fields of the channel into the region keeps its size. -/
theorem fields_mapped {s t : ChannelNames.State ν} {pid rb : ℕ} {name : ν} {size : ℤ}
    (h : s.shmemCreate pid name size = (some rb, t)) (elemSize capacity : ℤ) :
    0 < size ∧ ∃ o, Function.update t.shm name ((t.shm name).map fun o =>
      { o with elemSize := elemSize, capacity := capacity, owner := pid }) name = some o ∧
        o.length = size := by
  obtain ⟨hpos, o, ho, hlength⟩ := shmemCreate_mapped h
  refine ⟨hpos, { o with elemSize := elemSize, capacity := capacity, owner := pid }, ?_, hlength⟩
  rw [Function.update_self, ho, Option.map_some]

/-- So `mc_create` of the channel with a mutex maps the whole region or nothing. -/
theorem mcCreate_mapped {s t : ChannelNames.State ν} {pid rb : ℕ} {name : ν}
    {elemSize capacity : ℤ} (h : s.mcCreate pid name elemSize capacity = (some rb, t)) :
    0 < totalSize elemSize capacity ∧
      ∃ o, t.shm name = some o ∧ o.length = totalSize elemSize capacity := by
  unfold State.mcCreate at h
  split at h
  · cases h
  · next hmapped =>
    cases h
    exact fields_mapped hmapped elemSize capacity

/-- And so does that of the channel with semaphores. -/
theorem mcCreateSem_mapped {s t : ChannelNames.State ν} {pid rb : ℕ} {name : ν}
    {elemSize capacity : ℤ} (h : mcCreateSem s pid name elemSize capacity = (some rb, t)) :
    0 < mcSize elemSize capacity ∧
      ∃ o, t.shm name = some o ∧ o.length = mcSize elemSize capacity := by
  unfold mcCreateSem at h
  split at h
  · cases h
  · next hmapped =>
    cases h
    exact fields_mapped hmapped elemSize capacity

/-- The slots of the channel with a mutex, by the offsets that its `memcpy` uses. -/
theorem mutexSlots_iff {elemSize capacity : ℕ} (helem : 0 < elemSize)
    (hpos : 0 < totalSize elemSize capacity) (buf : Buffer) :
    SlotsFit bufOffset (totalSize elemSize capacity) elemSize capacity
        (fun i => (MutexChannel.mcCreate elemSize capacity buf).slot i) ↔
      elemSize * capacity + sizeofMemChannel ≤ intMax := by
  have hslot : ∀ i < capacity, (i * elemSize : ℤ) ≤ intMax →
      (MutexChannel.mcCreate elemSize capacity buf).slot i = i * elemSize := by
    intro i _ hrange
    have hlow : (0 : ℤ) ≤ i * elemSize := mul_nonneg i.cast_nonneg elemSize.cast_nonneg
    exact int32_of_nonneg hlow hrange
  exact slotsFit_iff hslot helem (by decide) (by decide) (by decide) hpos

/-- The slots of the channel with semaphores. -/
theorem semaphoreSlots_iff {elemSize capacity : ℕ} (helem : 0 < elemSize)
    (hpos : 0 < mcSize elemSize capacity) (buffer : Buffer) :
    SlotsFit bufferOffset (mcSize elemSize capacity) elemSize capacity
        (SemaphoreChannel.mcCreate elemSize capacity buffer).slot ↔
      elemSize * capacity + sizeofSemChannel ≤ intMax := by
  refine slotsFit_iff (fun i hi hrange => ?_) helem (by decide) (by decide) (by decide) hpos
  have hlow : (i : ℤ) ≤ i * elemSize := le_mul_of_one_le_right i.cast_nonneg (by exact_mod_cast helem)
  have hlong : (i : ℤ) < 2 ^ 63 := lt_of_le_of_lt (hlow.trans hrange) (by decide)
  rw [SemaphoreChannel.MemChannel.slot, int64_of_nonneg i.cast_nonneg hlong,
    Int.tmod_eq_emod_of_nonneg i.cast_nonneg, Int.emod_eq_of_lt i.cast_nonneg (by exact_mod_cast hi)]
  rfl

/-- In both implementations, the slots of a channel that `mc_create` made lie inside the
mapped region, side by side, exactly if the size of the region did not overflow. -/
theorem slots_inside_mapping_iff {elemSize capacity : ℕ} (helem : 0 < elemSize)
    (s : ChannelNames.State ν) (pid : ℕ) (name : ν) (buf : Buffer) :
    (∀ rb t o, s.mcCreate pid name elemSize capacity = (some rb, t) → t.shm name = some o →
      (SlotsFit bufOffset o.length elemSize capacity
          (fun i => (MutexChannel.mcCreate elemSize capacity buf).slot i) ↔
        elemSize * capacity + sizeofMemChannel ≤ intMax)) ∧
    (∀ rb t o, mcCreateSem s pid name elemSize capacity = (some rb, t) → t.shm name = some o →
      (SlotsFit bufferOffset o.length elemSize capacity
          (SemaphoreChannel.mcCreate elemSize capacity buf).slot ↔
        elemSize * capacity + sizeofSemChannel ≤ intMax)) := by
  constructor
  · intro rb t o hcreate ho
    obtain ⟨hpos, o', ho', hlength⟩ := mcCreate_mapped hcreate
    obtain rfl : o = o' := Option.some.inj (ho.symm.trans ho')
    rw [hlength]
    exact mutexSlots_iff helem hpos buf
  · intro rb t o hcreate ho
    obtain ⟨hpos, o', ho', hlength⟩ := mcCreateSem_mapped hcreate
    obtain rfl : o = o' := Option.some.inj (ho.symm.trans ho')
    rw [hlength]
    exact semaphoreSlots_iff helem hpos buf

/-- Nothing is mapped yet. -/
def noNames : ChannelNames.State ℕ := ⟨fun _ => none, ∅, fun _ => none, 0, fun _ => none, []⟩

/-- With 65536 elements of 65536 bytes both calls succeed, on regions of 168 and 112 bytes,
and the first slot ends far behind them. -/
theorem large_channel_outside :
    (∃ t, noNames.mcCreate 1 0 65536 65536 = (some 0, t) ∧
      (t.shm 0).map Object.length = some 168) ∧
    (∃ t, mcCreateSem noNames 1 0 65536 65536 = (some 0, t) ∧
      (t.shm 0).map Object.length = some 112) ∧
    ¬ SlotsFit bufOffset 168 65536 65536
        (fun i => (MutexChannel.mcCreate 65536 65536 fun _ => 0).slot i) ∧
    ¬ SlotsFit bufferOffset 112 65536 65536
        (SemaphoreChannel.mcCreate 65536 65536 fun _ => 0).slot := by
  refine ⟨⟨_, rfl, by decide⟩, ⟨_, rfl, by decide⟩, fun hfit => ?_, fun hfit => ?_⟩
  · exact absurd (hfit.inside 0 (by decide)).2 (by decide)
  · exact absurd (hfit.inside 0 (by decide)).2 (by decide)

/-- Four elements of eight bytes fit into both. -/
theorem slots_inside_mapping_iff_small :
    SlotsFit bufOffset 200 8 4 (fun i => (MutexChannel.mcCreate 8 4 fun _ => 0).slot i) ∧
    SlotsFit bufferOffset 144 8 4 (SemaphoreChannel.mcCreate 8 4 fun _ => 0).slot := by
  have hboth := @slots_inside_mapping_iff _ _ 8 4 (by decide) noNames 1 0 fun _ => 0
  exact ⟨(hboth.1 0 _ ⟨200, 8, 4, 1⟩ rfl (by decide)).mpr (by decide),
    (hboth.2 0 _ ⟨144, 8, 4, 1⟩ rfl (by decide)).mpr (by decide)⟩

end SistemasOperativos.ChannelSlots
