import SistemasOperativos.ByteMemory
import Mathlib.Tactic

/-!
# Elements in the slots of a circular byte buffer

A buffer is addressed by offsets from its base. Slots of one size lie side by
side, so that different slots share no byte, and the elements of a ring stand
in consecutive slots that wrap at the capacity.
-/

namespace SistemasOperativos.ByteRing

open ByteMemory (Byte)

/-- Bytes at every offset from a base address. -/
abbrev Buffer := ℤ → Byte

/-- The bytes from an offset on. -/
def slice (m : Buffer) (a : ℤ) (n : ℕ) : List Byte :=
  (List.range n).map fun i : ℕ => m (a + i)

/-- Write bytes from an offset on. -/
def copy (m : Buffer) (a : ℤ) (bytes : List Byte) : Buffer := fun x =>
  if a ≤ x then bytes[(x - a).toNat]?.getD (m x) else m x

@[simp] theorem length_slice (m : Buffer) (a : ℤ) (n : ℕ) : (slice m a n).length = n := by
  simp [slice]

/-- A slice only reads its own bytes. -/
theorem slice_congr {m m' : Buffer} {a : ℤ} {n : ℕ}
    (h : ∀ x, a ≤ x → x < a + n → m' x = m x) : slice m' a n = slice m a n := by
  unfold slice
  refine List.map_congr_left fun i hi => ?_
  have hlt := List.mem_range.mp hi
  exact h _ (by omega) (by omega)

/-- A copy only writes its own bytes. -/
theorem copy_outside {m : Buffer} {a x : ℤ} {bytes : List Byte}
    (h : x < a ∨ a + bytes.length ≤ x) : copy m a bytes x = m x := by
  unfold copy
  split
  · have hnone : bytes[(x - a).toNat]? = none := List.getElem?_eq_none (by omega)
    rw [hnone, Option.getD_none]
  · rfl

/-- What was copied is read. -/
theorem slice_copy_same (m : Buffer) (a : ℤ) (bytes : List Byte) :
    slice (copy m a bytes) a bytes.length = bytes := by
  apply List.ext_getElem (length_slice _ _ _)
  intro i hi hib
  have hoff : (a + (i : ℤ) - a).toNat = i := by omega
  simp only [slice, List.getElem_map, List.getElem_range, copy]
  rw [if_pos (by omega), hoff, List.getElem?_eq_getElem hib, Option.getD_some]

/-- A copy elsewhere does not change what is read. -/
theorem slice_copy_disjoint {m : Buffer} {a b : ℤ} {n : ℕ} {bytes : List Byte}
    (h : b + n ≤ a ∨ a + bytes.length ≤ b) : slice (copy m a bytes) b n = slice m b n :=
  slice_congr fun _ _ _ => copy_outside (by omega)

/-- Different slots share no byte. -/
theorem slot_disjoint {i j elem : ℤ} (helem : 0 ≤ elem) (hij : i ≠ j) :
    i * elem + elem ≤ j * elem ∨ j * elem + elem ≤ i * elem := by
  rcases lt_or_gt_of_ne hij with hlt | hgt
  · left
    have hmul := mul_le_mul_of_nonneg_right (Int.add_one_le_iff.mpr hlt) helem
    linarith
  · right
    have hmul := mul_le_mul_of_nonneg_right (Int.add_one_le_iff.mpr hgt) helem
    linarith

/-- The slot with an index below the capacity ends inside the ring. -/
theorem slot_inside {i elem capacity : ℤ} (helem : 0 ≤ elem) (hi : i < capacity) :
    i * elem + elem ≤ capacity * elem := by
  have hmul := mul_le_mul_of_nonneg_right (Int.add_one_le_iff.mpr hi) helem
  linarith

/-- Fewer than `capacity` places on from any place is a different slot. -/
theorem wrapped_ne {capacity first i j : ℤ} (hij : i < j) (hj : j < i + capacity) :
    (first + i) % capacity ≠ (first + j) % capacity := by
  intro heq
  have hdvd : capacity ∣ (first + j) - (first + i) :=
    Int.ModEq.dvd heq
  have hle := Int.le_of_dvd (by omega) hdvd
  omega

/-- Advancing an index and resetting it at the capacity is adding one modulo
the capacity. -/
theorem advance_wrapped {capacity k : ℤ} (hlo : 0 ≤ k) (hhi : k < capacity) :
    (if k + 1 = capacity then 0 else k + 1) = (k + 1) % capacity := by
  split
  · next h => rw [h, Int.emod_self]
  · rw [Int.emod_eq_of_lt (by omega) (by omega)]

/-- The elements stand in consecutive slots from the first one on, wrapping at
the capacity. -/
def Stored (m : Buffer) (capacity elem first : ℤ) (xs : List (List Byte)) : Prop :=
  ∀ (i : ℕ) (x : List Byte), xs[i]? = some x →
    slice m ((first + i) % capacity * elem) elem.toNat = x

section Stored

variable {m : Buffer} {capacity elem first : ℤ} {xs : List (List Byte)} {x : List Byte}

/-- Copying into the slot after the last element appends, and keeps the others. -/
theorem Stored.push (h : Stored m capacity elem first xs) (helem : 0 ≤ elem)
    (hroom : (xs.length : ℤ) < capacity) (hx : x.length = elem.toNat) :
    Stored (copy m ((first + xs.length) % capacity * elem) x) capacity elem first (xs ++ [x]) := by
  intro i y hy
  rcases Nat.lt_trichotomy i xs.length with hlt | heq | hgt
  · rw [List.getElem?_append_left hlt] at hy
    have hslots : (first + i) % capacity ≠ (first + xs.length) % capacity :=
      wrapped_ne (by omega) (by omega)
    have hapart := slot_disjoint helem hslots
    rw [slice_copy_disjoint (by rw [hx]; omega)]
    exact h i y hy
  · subst heq
    rw [List.getElem?_concat_length] at hy
    rw [← Option.some.inj hy, ← hx]
    exact slice_copy_same _ _ _
  · rw [List.getElem?_eq_none (by simp; omega)] at hy
    cases hy

/-- The first slot holds the first element. -/
theorem Stored.head (h : Stored m capacity elem first (x :: xs)) (hlo : 0 ≤ first)
    (hhi : first < capacity) : slice m (first * elem) elem.toNat = x := by
  have hslot := h 0 x rfl
  rw [Int.ofNat_zero, Int.add_zero, Int.emod_eq_of_lt hlo hhi] at hslot
  exact hslot

/-- Without the first element, the rest stand from the next slot on. -/
theorem Stored.tail (h : Stored m capacity elem first (x :: xs)) :
    Stored m capacity elem ((first + 1) % capacity) xs := by
  intro i y hy
  have hslot := h (i + 1) y (by rw [List.getElem?_cons_succ]; exact hy)
  rw [Int.emod_add_emod, Int.add_assoc, Int.add_comm 1]
  rw [Int.natCast_add, Int.natCast_one] at hslot
  exact hslot

end Stored

end SistemasOperativos.ByteRing
