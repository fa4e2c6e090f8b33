import Mathlib.Algebra.Order.BigOperators.Group.Finset
import Mathlib.Data.Fintype.Card
import Mathlib.Tactic

/-!
# Counting processes by where they stand

Of arbitrarily many processes, finitely many stand at places of some kind. The
count changes by one when a process enters or leaves such a place, whatever
the other processes do.
-/

namespace SistemasOperativos.Census

variable {π ν : Type*} [DecidableEq π]

/-- Exactly `n` processes stand at places of a kind. -/
def Standing (pc : π → ν) (kind : ν → Prop) (n : ℕ) : Prop :=
  ∃ T : Finset π, (∀ p, p ∈ T ↔ kind (pc p)) ∧ T.card = n

variable {pc : π → ν} {kind : ν → Prop} {n : ℕ}

omit [DecidableEq π] in
/-- Nobody stands at a place of the kind. -/
theorem Standing.none (h : ∀ p, ¬ kind (pc p)) : Standing pc kind 0 :=
  ⟨∅, fun p => ⟨fun hp => absurd hp (Finset.notMem_empty p), fun hp => absurd hp (h p)⟩, rfl⟩

omit [DecidableEq π] in
/-- A process at such a place is counted. -/
theorem Standing.pos (h : Standing pc kind n) {p : π} (hp : kind (pc p)) : 0 < n := by
  obtain ⟨T, hT, rfl⟩ := h
  exact Finset.card_pos.mpr ⟨p, (hT p).mpr hp⟩

omit [DecidableEq π] in
/-- When nobody is counted, nobody stands there. -/
theorem Standing.zero (h : Standing pc kind 0) (p : π) : ¬ kind (pc p) :=
  fun hp => absurd (h.pos hp) (Nat.lt_irrefl 0)

omit [DecidableEq π] in
/-- When somebody is counted, somebody stands there. -/
theorem Standing.exists_of_pos (h : Standing pc kind n) (hn : 0 < n) : ∃ p, kind (pc p) := by
  obtain ⟨T, hT, rfl⟩ := h
  obtain ⟨p, hp⟩ := Finset.card_pos.mp hn
  exact ⟨p, (hT p).mp hp⟩

omit [DecidableEq π] in
/-- Different processes that all stand there are all counted. -/
theorem Standing.card_le {ι : Type*} [Fintype ι] (h : Standing pc kind n) {f : ι → π}
    (hf : Function.Injective f) (hk : ∀ i, kind (pc (f i))) : Fintype.card ι ≤ n := by
  obtain ⟨T, hT, rfl⟩ := h
  rw [← Finset.card_univ, ← Finset.card_map ⟨f, hf⟩]
  refine Finset.card_le_card fun p hp => ?_
  obtain ⟨i, -, rfl⟩ := Finset.mem_map.mp hp
  exact (hT (f i)).mpr (hk i)

omit [DecidableEq π] in
/-- The count only depends on who stands at places of the kind. -/
theorem Standing.congr {ν' : Type*} {pc' : π → ν'} {kind' : ν' → Prop} (h : Standing pc kind n)
    (hsame : ∀ p, kind' (pc' p) ↔ kind (pc p)) : Standing pc' kind' n := by
  obtain ⟨T, hT, hcard⟩ := h
  exact ⟨T, fun p => (hT p).trans (hsame p).symm, hcard⟩

/-- One process moves: it is counted at its new place and no more at its old one. -/
theorem Standing.move [DecidablePred kind] (h : Standing pc kind n) (p : π) (q : ν) :
    Standing (Function.update pc p q) kind
      (n + (if kind q then 1 else 0) - if kind (pc p) then 1 else 0) := by
  obtain ⟨T, hT, rfl⟩ := h
  have hother : ∀ r, r ≠ p → (r ∈ T ↔ kind (Function.update pc p q r)) := by
    intro r hr
    rw [Function.update_of_ne hr]
    exact hT r
  by_cases hq : kind q
  · refine ⟨insert p T, fun r => ?_, ?_⟩
    · rcases eq_or_ne r p with rfl | hr
      · rw [Function.update_self]
        exact ⟨fun _ => hq, fun _ => Finset.mem_insert_self r T⟩
      · rw [Finset.mem_insert, hother r hr]
        exact ⟨fun hor => hor.resolve_left hr, .inr⟩
    · by_cases hp : kind (pc p)
      · rw [Finset.insert_eq_of_mem ((hT p).mpr hp), if_pos hq, if_pos hp, Nat.add_sub_cancel]
      · rw [Finset.card_insert_of_notMem (fun hmem => hp ((hT p).mp hmem)), if_pos hq, if_neg hp,
          Nat.sub_zero]
  · refine ⟨T.erase p, fun r => ?_, ?_⟩
    · rcases eq_or_ne r p with rfl | hr
      · rw [Function.update_self]
        exact ⟨fun hmem => absurd hmem (Finset.notMem_erase r T), fun hk => absurd hk hq⟩
      · rw [Finset.mem_erase, hother r hr]
        exact ⟨fun hand => hand.2, fun hk => ⟨hr, hk⟩⟩
    · by_cases hp : kind (pc p)
      · rw [Finset.card_erase_of_mem ((hT p).mpr hp), if_neg hq, if_pos hp, Nat.add_zero]
      · rw [Finset.erase_eq_of_notMem (fun hmem => hp ((hT p).mp hmem)), if_neg hq, if_neg hp,
          Nat.add_zero, Nat.sub_zero]

/-- A process moves between two places of the same kind, or between two others. -/
theorem Standing.stay [DecidablePred kind] (h : Standing pc kind n) {p : π} {q : ν}
    (hsame : kind q ↔ kind (pc p)) : Standing (Function.update pc p q) kind n := by
  have hmove := h.move p q
  simp only [hsame, Nat.add_sub_cancel] at hmove
  exact hmove

/-- A process leaves the places of the kind. -/
theorem Standing.leave [DecidablePred kind] (h : Standing pc kind n) {p : π} {q : ν}
    (hp : kind (pc p)) (hq : ¬ kind q) : Standing (Function.update pc p q) kind (n - 1) := by
  have hmove := h.move p q
  rw [if_neg hq, if_pos hp, Nat.add_zero] at hmove
  exact hmove

/-- A count in a balance follows the quantities that a moving process changes. -/
theorem Standing.balance [DecidablePred kind] {a b : ℕ}
    (h : ∃ n, Standing pc kind n ∧ a + n = b) (p : π) (q : ν) {a' b' : ℕ}
    (hbalance : a' + (if kind q then 1 else 0) + b = a + (if kind (pc p) then 1 else 0) + b') :
    ∃ n, Standing (Function.update pc p q) kind n ∧ a' + n = b' := by
  obtain ⟨n, hn, hab⟩ := h
  refine ⟨_, hn.move p q, ?_⟩
  by_cases hp : kind (pc p)
  · have hpos := hn.pos hp
    rw [if_pos hp] at hbalance ⊢
    omega
  · rw [if_neg hp] at hbalance ⊢
    omega

/-- While a condition lasts, a quantity is at most a count. A moving process keeps
it so when the count makes up for what the quantity grows, and so does a step
after which nothing is left of the quantity. -/
theorem Standing.covers [DecidablePred kind] {a a' : ℤ} {P P' : Prop}
    (h : ∃ n, Standing pc kind n ∧ (P → a ≤ n)) (p : π) (q : ν)
    (hstep : P' → a' ≤ 0 ∨
      P ∧ a' + (if kind (pc p) then 1 else 0) ≤ a + (if kind q then 1 else 0)) :
    ∃ n, Standing (Function.update pc p q) kind n ∧ (P' → a' ≤ n) := by
  obtain ⟨n, hn, hbound⟩ := h
  refine ⟨_, hn.move p q, fun hP' => ?_⟩
  rcases hstep hP' with hnothing | ⟨hP, hbalance⟩
  · omega
  · have hle := hbound hP
    by_cases hp : kind (pc p) <;> by_cases hq : kind q
    · simp only [hp, hq, if_true, Nat.add_sub_cancel] at hbalance ⊢
      omega
    · have hpos := hn.pos hp
      simp only [hp, hq, if_true, if_false] at hbalance ⊢
      omega
    · simp only [hp, hq, if_true, if_false] at hbalance ⊢
      omega
    · simp only [hp, hq, if_false] at hbalance ⊢
      omega

/-- One summand changes at will, and another one grows by at most a constant. -/
theorem sum_moved [Fintype π] {f g : π → ℕ} (p : π) (w : Option π) (d : ℕ)
    (h : ∀ q, q ≠ p → g q ≤ f q + if w = some q then d else 0) :
    (∑ q, g q) + f p ≤ (∑ q, f q) + g p + d := by
  have hwoken : (∑ q ∈ Finset.univ.erase p, if w = some q then d else 0) ≤ d := by
    cases w with
    | none => simp
    | some r =>
      simp only [Option.some.injEq, Finset.sum_ite_eq]
      split <;> omega
  have hrest : (∑ q ∈ Finset.univ.erase p, g q) ≤
      (∑ q ∈ Finset.univ.erase p, f q) +
        ∑ q ∈ Finset.univ.erase p, if w = some q then d else 0 := by
    rw [← Finset.sum_add_distrib]
    exact Finset.sum_le_sum fun q hq => h q (Finset.ne_of_mem_erase hq)
  rw [← Finset.add_sum_erase _ _ (Finset.mem_univ p), ← Finset.add_sum_erase _ _ (Finset.mem_univ p)]
  omega

/-- One summand gets smaller, and no other one grows. -/
theorem sum_lt_of_moved [Fintype π] {f g : π → ℕ} (p : π) (hp : g p < f p)
    (h : ∀ q, q ≠ p → g q ≤ f q) : (∑ q, g q) < ∑ q, f q := by
  have hsum := sum_moved (f := f) (g := g) p none 0 fun q hq => by simpa using h q hq
  omega

omit [DecidableEq π] in
/-- One summand grows, and the others stay. -/
theorem sum_added [Fintype π] {f g : π → ℕ} {d : ℕ} (p : π) (hp : g p = f p + d)
    (h : ∀ q, q ≠ p → g q = f q) : (∑ q, g q) = (∑ q, f q) + d := by
  classical
  have hrest : (∑ q ∈ Finset.univ.erase p, g q) = ∑ q ∈ Finset.univ.erase p, f q :=
    Finset.sum_congr rfl fun q hq => h q (Finset.ne_of_mem_erase hq)
  rw [← Finset.add_sum_erase _ _ (Finset.mem_univ p), ← Finset.add_sum_erase _ _ (Finset.mem_univ p)]
  omega

end SistemasOperativos.Census
