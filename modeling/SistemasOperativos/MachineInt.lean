import Mathlib.Tactic

/-!
# Signed integers of 32 and of 64 bits

An `int` or `long` expression is its mathematical value reduced to the range of
the type. Inside the range the reduction does nothing, which is all that code
without overflow needs.
-/

namespace SistemasOperativos.MachineInt

/-- Largest `int`. -/
def intMax : ℤ := 2 ^ 31 - 1

/-- Value of an `int` expression, wrapping modulo `2 ^ 32`. -/
def int32 (x : ℤ) : ℤ := (x + 2 ^ 31) % 2 ^ 32 - 2 ^ 31

/-- A value in range is not changed. -/
theorem int32_of_range {x : ℤ} (hlo : -intMax ≤ x) (hhi : x ≤ intMax) : int32 x = x := by
  unfold intMax at hlo hhi
  unfold int32
  omega

/-- Counts and offsets of an `int` that did not overflow are not changed. -/
theorem int32_of_nonneg {x : ℤ} (hlo : 0 ≤ x) (hhi : x ≤ intMax) : int32 x = x :=
  int32_of_range (le_trans (by decide) hlo) hhi

/-- Value of a `long` expression, wrapping modulo `2 ^ 64`. -/
def int64 (x : ℤ) : ℤ := (x + 2 ^ 63) % 2 ^ 64 - 2 ^ 63

/-- Counts in the range of `long` are not changed. -/
theorem int64_of_nonneg {x : ℤ} (hlo : 0 ≤ x) (hhi : x < 2 ^ 63) : int64 x = x := by
  unfold int64
  omega

end SistemasOperativos.MachineInt
