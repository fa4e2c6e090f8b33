import Mathlib.Data.Finset.Image
import Mathlib.Tactic

/-!
# A set kept at the front of an array

The first entries of an array, up to a count, hold a set in no order. An entry
is added behind them, and removed by moving the last one over it.
-/

namespace SistemasOperativos.DenseArray

variable {α : Type*}

/-- The first `n` entries are different. -/
def Distinct (f : ℕ → α) (n : ℕ) : Prop := ∀ i < n, ∀ j < n, f i = f j → i = j

/-- The array with the last of its first `n` entries moved over entry `i`. -/
def moveLast (f : ℕ → α) (n i : ℕ) : ℕ → α := Function.update f i (f (n - 1))

/-- An entry that is not in front stays different. -/
theorem Distinct.push {f : ℕ → α} {n : ℕ} (h : Distinct f n) {x : α} (hx : ∀ i < n, f i ≠ x) :
    Distinct (Function.update f n x) (n + 1) := by
  intro i hi j hj hij
  rcases Nat.lt_succ_iff_lt_or_eq.mp hi with hin | rfl
  · rcases Nat.lt_succ_iff_lt_or_eq.mp hj with hjn | rfl
    · rw [Function.update_of_ne hin.ne, Function.update_of_ne hjn.ne] at hij
      exact h i hin j hjn hij
    · rw [Function.update_of_ne hin.ne, Function.update_self] at hij
      exact absurd hij (hx i hin)
  · rcases Nat.lt_succ_iff_lt_or_eq.mp hj with hjn | rfl
    · rw [Function.update_self, Function.update_of_ne hjn.ne] at hij
      exact absurd hij.symm (hx j hjn)
    · rfl

/-- Where the entries come from after the last one moved. -/
theorem moveLast_eq (f : ℕ → α) (n i j : ℕ) :
    (j = i ∧ moveLast f n i j = f (n - 1)) ∨ (j ≠ i ∧ moveLast f n i j = f j) := by
  rcases eq_or_ne j i with rfl | hji
  · exact .inl ⟨rfl, Function.update_self _ _ _⟩
  · exact .inr ⟨hji, Function.update_of_ne hji _ _⟩

/-- Moving the last entry keeps the entries different. -/
theorem Distinct.moveLast {f : ℕ → α} {n : ℕ} (h : Distinct f n) (i : ℕ) :
    Distinct (moveLast f n i) (n - 1) := by
  intro j hj k hk hjk
  rcases moveLast_eq f n i j with ⟨rfl, hfj⟩ | ⟨hji, hfj⟩
  · rcases moveLast_eq f n j k with ⟨rfl, -⟩ | ⟨-, hfk⟩
    · rfl
    · rw [hfj, hfk] at hjk
      have hlast := h (n - 1) (by omega) k (by omega) hjk
      omega
  · rcases moveLast_eq f n i k with ⟨rfl, hfk⟩ | ⟨-, hfk⟩
    · rw [hfj, hfk] at hjk
      have hlast := h j (by omega) (n - 1) (by omega) hjk
      omega
    · rw [hfj, hfk] at hjk
      exact h j (by omega) k (by omega) hjk

section Members

variable [DecidableEq α]

/-- The first `n` entries as a set. -/
def members (f : ℕ → α) (n : ℕ) : Finset α := (Finset.range n).image f

theorem mem_members {f : ℕ → α} {n : ℕ} {x : α} : x ∈ members f n ↔ ∃ i < n, f i = x := by
  simp only [members, Finset.mem_image, Finset.mem_range]

/-- Different entries are as many as the count. -/
theorem Distinct.card_members {f : ℕ → α} {n : ℕ} (h : Distinct f n) : (members f n).card = n := by
  rw [members, Finset.card_image_of_injOn, Finset.card_range]
  intro i hi j hj hij
  exact h i (by simpa using hi) j (by simpa using hj) hij

/-- Adding an entry adds it to the set. -/
theorem members_push (f : ℕ → α) (n : ℕ) (x : α) :
    members (Function.update f n x) (n + 1) = insert x (members f n) := by
  ext y
  rw [Finset.mem_insert, mem_members, mem_members]
  constructor
  · rintro ⟨i, hi, rfl⟩
    rcases Nat.lt_succ_iff_lt_or_eq.mp hi with hin | rfl
    · exact .inr ⟨i, hin, (Function.update_of_ne hin.ne _ _).symm⟩
    · exact .inl (Function.update_self _ _ _)
  · rintro (rfl | ⟨i, hi, rfl⟩)
    · exact ⟨n, Nat.lt_succ_self n, Function.update_self _ _ _⟩
    · exact ⟨i, Nat.lt_succ_of_lt hi, Function.update_of_ne hi.ne _ _⟩

/-- Moving the last entry over another one removes that one from the set. -/
theorem Distinct.members_moveLast {f : ℕ → α} {n i : ℕ} (h : Distinct f n) (hi : i < n) :
    members (DenseArray.moveLast f n i) (n - 1) = (members f n).erase (f i) := by
  ext y
  rw [Finset.mem_erase, mem_members, mem_members]
  constructor
  · rintro ⟨j, hj, rfl⟩
    rcases moveLast_eq f n i j with ⟨rfl, hfj⟩ | ⟨hji, hfj⟩
    · rw [hfj]
      refine ⟨fun he => ?_, n - 1, by omega, rfl⟩
      have hlast := h (n - 1) (by omega) j hi he
      omega
    · rw [hfj]
      exact ⟨fun he => hji (h j (by omega) i hi he), j, by omega, rfl⟩
  · rintro ⟨hy, j, hj, rfl⟩
    have hji : j ≠ i := fun he => hy (by rw [he])
    rcases Nat.lt_or_ge j (n - 1) with hlt | hge
    · exact ⟨j, hlt, Function.update_of_ne hji _ _⟩
    · have hlast : j = n - 1 := by omega
      exact ⟨i, by omega, by rw [DenseArray.moveLast, Function.update_self, hlast]⟩

end Members

end SistemasOperativos.DenseArray
