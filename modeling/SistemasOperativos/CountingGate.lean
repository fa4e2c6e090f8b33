import Mathlib.Data.Fintype.Card
import SistemasOperativos.TransitionRuns

/-!
# A gate that opens when everybody has signalled

The purpose of a latch, whatever it is made of: every signaller signals once,
and whoever waits passes when all of them have.
-/

namespace SistemasOperativos.CountingGate

open TransitionRuns

variable {ω ι : Type*} [DecidableEq ω] [DecidableEq ι] [Fintype ι]

/-- Who signalled, and who passed. -/
structure Gate (ω ι : Type*) where
  signalled : Finset ι
  passed : Finset ω

/-- What happens at a gate. -/
inductive Event (ω ι : Type*)
  | signal (i : ι)
  | pass (w : ω)

/-- Everybody signals once, and passes once, after all have signalled. -/
def Gate.next (g : Gate ω ι) : Event ω ι → Option (Gate ω ι)
  | .signal i => if i ∈ g.signalled then none else some { g with signalled := insert i g.signalled }
  | .pass w =>
    if g.signalled = Finset.univ ∧ w ∉ g.passed then some { g with passed := insert w g.passed }
    else none

/-- All runs of a gate that starts closed. -/
def gate (ω ι : Type*) [DecidableEq ω] [DecidableEq ι] [Fintype ι] :
    System (Gate ω ι) (Event ω ι) :=
  ofNext (fun g => g = ⟨∅, ∅⟩) Gate.next

/-- Nobody passes before all have signalled. -/
theorem all_signalled {g : Gate ω ι} (hg : (gate ω ι).Reachable g) {w : ω} (hw : w ∈ g.passed) :
    g.signalled = Finset.univ := by
  refine System.Reachable.invariant (S := gate ω ι)
    (I := fun g => ∀ w ∈ g.passed, g.signalled = Finset.univ) ?_ ?_ hg w hw
  · rintro g rfl w hw
    exact absurd hw (Finset.notMem_empty w)
  · intro g e g' _ hI hstep w hw
    have hnext : g.next e = some g' := hstep
    cases e with
    | signal i =>
      simp only [Gate.next, Option.ite_none_left_eq_some, Option.some.injEq] at hnext
      obtain ⟨hnew, rfl⟩ := hnext
      rw [hI w hw] at hnew
      exact absurd (Finset.mem_univ i) hnew
    | pass v =>
      simp only [Gate.next, Option.ite_none_right_eq_some, Option.some.injEq] at hnext
      obtain ⟨⟨hall, -⟩, rfl⟩ := hnext
      exact hall

/-- A gate that shows who signalled and who passed of something that is used as one. -/
structure Gate.Shows (g : Gate ω ι) (counted : ι → Prop) (returned : ω → Prop) : Prop where
  signalled : ∀ i, i ∈ g.signalled ↔ counted i
  passed : ∀ w, w ∈ g.passed ↔ returned w

section Steps

variable {g : Gate ω ι} {counted counted' : ι → Prop} {returned returned' : ω → Prop}

/-- Somebody counts for the first time, which is a signal, or again. -/
theorem Gate.Shows.signal (h : g.Shows counted returned) {i : ι} (hi : counted' i)
    (hothers : ∀ j, j ≠ i → (counted' j ↔ counted j)) :
    ∃ g', (gate ω ι).Steps g g' ∧ g'.Shows counted' returned := by
  by_cases hsignalled : i ∈ g.signalled
  · refine ⟨g, .refl, fun j => ?_, h.passed⟩
    rcases eq_or_ne j i with rfl | hj
    · exact iff_of_true hsignalled hi
    · rw [h.signalled, hothers j hj]
  · refine ⟨{ g with signalled := insert i g.signalled }, .single ⟨.signal i, if_neg hsignalled⟩,
      fun j => ?_, h.passed⟩
    rcases eq_or_ne j i with rfl | hj
    · exact iff_of_true (Finset.mem_insert_self _ _) hi
    · rw [Finset.mem_insert, or_iff_right hj, h.signalled, hothers j hj]

/-- Somebody moves on, and passes if it returns. -/
theorem Gate.Shows.pass (h : g.Shows counted returned) {w : ω} (hw : ¬ returned w)
    (hall : returned' w → ∀ i, counted i) (hothers : ∀ v, v ≠ w → (returned' v ↔ returned v)) :
    ∃ g', (gate ω ι).Steps g g' ∧ g'.Shows counted returned' := by
  have hout : w ∉ g.passed := fun hin => hw ((h.passed w).mp hin)
  by_cases hreturned : returned' w
  · have hopen : g.signalled = Finset.univ :=
      Finset.eq_univ_iff_forall.mpr fun i => (h.signalled i).mpr (hall hreturned i)
    refine ⟨{ g with passed := insert w g.passed }, .single ⟨.pass w, if_pos ⟨hopen, hout⟩⟩,
      h.signalled, fun v => ?_⟩
    rcases eq_or_ne v w with rfl | hv
    · exact iff_of_true (Finset.mem_insert_self _ _) hreturned
    · rw [Finset.mem_insert, or_iff_right hv, h.passed, hothers v hv]
  · refine ⟨g, .refl, h.signalled, fun v => ?_⟩
    rcases eq_or_ne v w with rfl | hv
    · exact iff_of_false hout hreturned
    · rw [h.passed, hothers v hv]

end Steps

end SistemasOperativos.CountingGate
