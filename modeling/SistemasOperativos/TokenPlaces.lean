import Mathlib.Logic.Function.Basic
import Mathlib.Data.Nat.Notation
import Mathlib.Tactic.SplitIfs

/-!
# Tokens that are each in at most one place

A system keeps tokens in containers and moves them about. What an observer
sees is how often a token occurs in a place. The location function says where
each token is meant to be, and the counts agree with it exactly when no token
is lost, duplicated or shared between two places.
-/

namespace SistemasOperativos.TokenPlaces

variable {τ κ : Type*} [DecidableEq τ] [DecidableEq κ]

/-- Every token occurs once in the place its location names and nowhere else. -/
def Placed (occ : τ → κ → ℕ) (loc : τ → Option κ) : Prop :=
  ∀ t k, occ t k = if loc t = some k then 1 else 0

omit [DecidableEq τ] in
/-- A token occurs at most once in every place. -/
theorem Placed.le_one {occ : τ → κ → ℕ} {loc : τ → Option κ} (h : Placed occ loc)
    (t : τ) (k : κ) : occ t k ≤ 1 := by
  rw [h t k]
  split <;> decide

omit [DecidableEq τ] in
/-- Occurrence and location say the same. -/
theorem Placed.pos_iff {occ : τ → κ → ℕ} {loc : τ → Option κ} (h : Placed occ loc)
    {t : τ} {k : κ} : 0 < occ t k ↔ loc t = some k := by
  rw [h t k]
  split <;> simp_all

/-- One token enters a place, leaves its place or moves between two places:
its old occurrence goes, its new one comes, and no other count changes. -/
theorem Placed.update {occ occ' : τ → κ → ℕ} {loc : τ → Option κ} (h : Placed occ loc)
    (t : τ) (q : Option κ)
    (hocc : ∀ u k, occ' u k + (if u = t ∧ loc t = some k then 1 else 0) =
      occ u k + if u = t ∧ q = some k then 1 else 0) :
    Placed occ' (Function.update loc t q) := by
  intro u k
  have hu := hocc u k
  rw [h u k] at hu
  by_cases he : u = t
  · subst he
    simp only [true_and, Function.update_self] at hu ⊢
    omega
  · simp only [he, false_and, if_false, Nat.add_zero] at hu
    rw [Function.update_of_ne he]
    exact hu

/-- A token moves from its place to another one. -/
theorem Placed.transfer {occ occ' : τ → κ → ℕ} {loc : τ → Option κ} (h : Placed occ loc)
    {t : τ} {p q : κ} (hp : loc t = some p) (hpq : p ≠ q)
    (hfrom : ∀ u, occ' u p + (if u = t then 1 else 0) = occ u p)
    (hto : ∀ u, occ' u q = occ u q + if u = t then 1 else 0)
    (hother : ∀ u k, k ≠ p → k ≠ q → occ' u k = occ u k) :
    Placed occ' (Function.update loc t (some q)) := by
  refine h.update t (some q) fun u k => ?_
  by_cases hkp : k = p
  · simp [hkp, hp, hpq.symm, hfrom u]
  · by_cases hkq : k = q
    · simp [hkq, hp, hpq, hto u]
    · simp [hp, Ne.symm hkp, Ne.symm hkq, hother u k hkp hkq]

/-- A token that is nowhere comes to a place. -/
theorem Placed.enter {occ occ' : τ → κ → ℕ} {loc : τ → Option κ} (h : Placed occ loc)
    {t : τ} {q : κ} (ht : loc t = none)
    (hto : ∀ u, occ' u q = occ u q + if u = t then 1 else 0)
    (hother : ∀ u k, k ≠ q → occ' u k = occ u k) :
    Placed occ' (Function.update loc t (some q)) := by
  refine h.update t (some q) fun u k => ?_
  by_cases hkq : k = q
  · simp [hkq, ht, hto u]
  · simp [ht, Ne.symm hkq, hother u k hkq]

/-- A token leaves its place for good. -/
theorem Placed.leave {occ occ' : τ → κ → ℕ} {loc : τ → Option κ} (h : Placed occ loc)
    {t : τ} {p : κ} (hp : loc t = some p)
    (hfrom : ∀ u, occ' u p + (if u = t then 1 else 0) = occ u p)
    (hother : ∀ u k, k ≠ p → occ' u k = occ u k) :
    Placed occ' (Function.update loc t none) := by
  refine h.update t none fun u k => ?_
  by_cases hkp : k = p
  · simp [hkp, hp, hfrom u]
  · simp [hp, Ne.symm hkp, hother u k hkp]

omit [DecidableEq τ] in
/-- All tokens of one place move to another place at once. -/
theorem Placed.moveAll {occ occ' : τ → κ → ℕ} {loc : τ → Option κ} (h : Placed occ loc)
    {p q : κ} (hpq : p ≠ q)
    (hocc : ∀ u k, occ' u k = (if k = p then 0 else occ u k) + if k = q then occ u p else 0) :
    Placed occ' fun u => if loc u = some p then some q else loc u := by
  intro u k
  rw [hocc u k, h u k, h u p]
  by_cases hu : loc u = some p
  · by_cases hk : k = p
    · simp [hu, hk, hpq, Ne.symm hpq]
    · simp [hu, hk, Ne.symm hk, eq_comm]
  · by_cases hk : k = p
    · simp [hk, hu, hpq]
    · simp [hu, hk]

end SistemasOperativos.TokenPlaces
