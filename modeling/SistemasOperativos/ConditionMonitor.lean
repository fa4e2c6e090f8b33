import Mathlib.Data.Finset.Card
import Mathlib.Tactic

/-!
# Mutexes and condition variables

A mutex is held by at most one thread. A thread that waits on a condition
gives the mutex up and falls asleep in one step, and takes the mutex again
only after it was woken. A signal wakes one sleeper, whichever it is, and does
nothing when there is none. A broadcast wakes all of them. A sleeper may also
wake for no reason.
-/

namespace SistemasOperativos.ConditionMonitor

variable {π κ : Type*} [DecidableEq π] [DecidableEq κ]

/-- A mutex with its condition variables. -/
structure Monitor (π κ : Type*) where
  /-- The thread that holds the mutex. -/
  holder : Option π
  /-- The threads asleep on each condition. -/
  asleep : κ → Finset π

/-- Nobody holds the mutex or sleeps. -/
def Monitor.new : Monitor π κ := ⟨none, fun _ => ∅⟩

/-- Take the mutex. -/
def Monitor.lock (m : Monitor π κ) (p : π) : Option (Monitor π κ) :=
  if m.holder = none then some { m with holder := some p } else none

/-- Release the mutex. -/
def Monitor.unlock (m : Monitor π κ) (p : π) : Option (Monitor π κ) :=
  if m.holder = some p then some { m with holder := none } else none

/-- Release the mutex and fall asleep on a condition. -/
def Monitor.wait (m : Monitor π κ) (c : κ) (p : π) : Option (Monitor π κ) :=
  if m.holder = some p then
    some ⟨none, Function.update m.asleep c (insert p (m.asleep c))⟩
  else none

/-- Return from a wait: a thread that is awake again takes the mutex. -/
def Monitor.relock (m : Monitor π κ) (c : κ) (p : π) : Option (Monitor π κ) :=
  if p ∈ m.asleep c then none else m.lock p

/-- Wake one sleeper, if there is one. The sleeper is named by the step. -/
def Monitor.signal (m : Monitor π κ) (c : κ) : Option π → Option (Monitor π κ)
  | none => if (m.asleep c).card = 0 then some m else none
  | some q =>
    if q ∈ m.asleep c then
      some { m with asleep := Function.update m.asleep c ((m.asleep c).erase q) }
    else none

/-- Wake every sleeper. -/
def Monitor.broadcast (m : Monitor π κ) (c : κ) : Monitor π κ :=
  { m with asleep := Function.update m.asleep c ∅ }

/-- A sleeper wakes for no reason. -/
def Monitor.wake (m : Monitor π κ) (c : κ) (p : π) : Option (Monitor π κ) :=
  m.signal c (some p)

omit [DecidableEq π] [DecidableEq κ] in
/-- Locking needs a free mutex and makes the thread its holder. -/
theorem Monitor.lock_spec {m n : Monitor π κ} {p : π} (h : m.lock p = some n) :
    m.holder = none ∧ n = { m with holder := some p } := by
  simp only [Monitor.lock, Option.ite_none_right_eq_some, Option.some.injEq] at h
  exact ⟨h.1, h.2.symm⟩

omit [DecidableEq κ] in
/-- Only the holder unlocks. -/
theorem Monitor.unlock_spec {m n : Monitor π κ} {p : π} (h : m.unlock p = some n) :
    m.holder = some p ∧ n = { m with holder := none } := by
  simp only [Monitor.unlock, Option.ite_none_right_eq_some, Option.some.injEq] at h
  exact ⟨h.1, h.2.symm⟩

omit [DecidableEq π] [DecidableEq κ] in
/-- A free mutex can be locked. -/
theorem Monitor.lock_of_free {m : Monitor π κ} {p : π} (hfree : m.holder = none) :
    m.lock p = some { m with holder := some p } :=
  if_pos hfree

omit [DecidableEq κ] in
/-- The holder can unlock. -/
theorem Monitor.unlock_of_held {m : Monitor π κ} {p : π} (hheld : m.holder = some p) :
    m.unlock p = some { m with holder := none } :=
  if_pos hheld

/-- Only the holder waits, and nobody holds the mutex afterwards. -/
theorem Monitor.wait_spec {m n : Monitor π κ} {c : κ} {p : π} (h : m.wait c p = some n) :
    m.holder = some p ∧ n = ⟨none, Function.update m.asleep c (insert p (m.asleep c))⟩ := by
  simp only [Monitor.wait, Option.ite_none_right_eq_some, Option.some.injEq] at h
  exact ⟨h.1, h.2.symm⟩

omit [DecidableEq κ] in
/-- A thread that returns from a wait was awake and takes a free mutex. -/
theorem Monitor.relock_spec {m n : Monitor π κ} {c : κ} {p : π} (h : m.relock c p = some n) :
    p ∉ m.asleep c ∧ m.holder = none ∧ n = { m with holder := some p } := by
  simp only [Monitor.relock, Option.ite_none_left_eq_some] at h
  exact ⟨h.1, Monitor.lock_spec h.2⟩

/-- A signal never waits. -/
theorem Monitor.exists_signal (m : Monitor π κ) (c : κ) :
    ∃ w n, m.signal c w = some n := by
  rcases (m.asleep c).eq_empty_or_nonempty with hnone | ⟨q, hq⟩
  · exact ⟨none, m, if_pos (Finset.card_eq_zero.mpr hnone)⟩
  · exact ⟨some q, _, if_pos hq⟩

/-- A signal leaves the mutex alone. -/
theorem Monitor.signal_holder {m n : Monitor π κ} {c : κ} {w : Option π}
    (h : m.signal c w = some n) : n.holder = m.holder := by
  cases w with
  | none =>
    simp only [Monitor.signal, Option.ite_none_right_eq_some, Option.some.injEq] at h
    rw [← h.2]
  | some q =>
    simp only [Monitor.signal, Option.ite_none_right_eq_some, Option.some.injEq] at h
    rw [← h.2]

/-- The mutex is held exactly by the thread inside a critical section. -/
def Monitor.HeldBy (m : Monitor π κ) (inside : π → Prop) : Prop :=
  ∀ p, inside p ↔ m.holder = some p

section HeldBy

variable {m n : Monitor π κ} {inside inside' : π → Prop} {p : π}

omit [DecidableEq π] [DecidableEq κ] in
/-- No two threads are inside. -/
theorem Monitor.HeldBy.unique (h : m.HeldBy inside) {q : π} (hp : inside p) (hq : inside q) :
    p = q :=
  Option.some.inj (((h p).mp hp).symm.trans ((h q).mp hq))

omit [DecidableEq π] [DecidableEq κ] in
/-- The thread that takes a free mutex enters. -/
theorem Monitor.HeldBy.enter (h : m.HeldBy inside) (hfree : m.holder = none)
    (hn : n.holder = some p) (hp : inside' p) (hothers : ∀ r, r ≠ p → (inside' r ↔ inside r)) :
    n.HeldBy inside' := by
  intro r
  rcases eq_or_ne r p with rfl | hr
  · exact ⟨fun _ => hn, fun _ => hp⟩
  · rw [hothers r hr, h r, hn, hfree]
    exact ⟨fun he => (nomatch he), fun he => absurd (Option.some.inj he).symm hr⟩

omit [DecidableEq π] [DecidableEq κ] in
/-- The holder leaves and releases the mutex. -/
theorem Monitor.HeldBy.leave (h : m.HeldBy inside) (hheld : m.holder = some p)
    (hn : n.holder = none) (hp : ¬ inside' p) (hothers : ∀ r, r ≠ p → (inside' r ↔ inside r)) :
    n.HeldBy inside' := by
  intro r
  rcases eq_or_ne r p with rfl | hr
  · rw [hn]
    exact ⟨fun hin => absurd hin hp, fun he => nomatch he⟩
  · rw [hothers r hr, h r, hn, hheld]
    exact ⟨fun he => absurd (Option.some.inj he).symm hr, fun he => nomatch he⟩

omit [DecidableEq π] [DecidableEq κ] in
/-- A thread moves without entering or leaving. -/
theorem Monitor.HeldBy.keep (h : m.HeldBy inside) (hn : n.holder = m.holder)
    (hp : inside' p ↔ inside p) (hothers : ∀ r, r ≠ p → (inside' r ↔ inside r)) :
    n.HeldBy inside' := by
  intro r
  rw [hn]
  rcases eq_or_ne r p with rfl | hr
  · exact hp.trans (h r)
  · exact (hothers r hr).trans (h r)

end HeldBy

section Moves

variable {ν : Type*} {m n : Monitor π κ} {pc pc' : π → ν} {I : ν → Prop} {p : π} {q : ν}

omit [DecidableEq κ] in
/-- A thread moves from inside to inside, or from outside to outside. -/
theorem Monitor.HeldBy.stays (h : m.HeldBy fun r => I (pc r)) (hn : n.holder = m.holder)
    (hpc : pc' = Function.update pc p q) (hq : I q ↔ I (pc p)) : n.HeldBy fun r => I (pc' r) := by
  refine h.keep hn (p := p) ?_ fun r hr => ?_
  · rw [hpc, Function.update_self, hq]
  · rw [hpc, Function.update_of_ne hr]

omit [DecidableEq κ] in
/-- A thread takes the free mutex and moves inside. -/
theorem Monitor.HeldBy.moves_in (h : m.HeldBy fun r => I (pc r)) (hfree : m.holder = none)
    (hn : n.holder = some p) (hpc : pc' = Function.update pc p q) (hq : I q) :
    n.HeldBy fun r => I (pc' r) := by
  refine h.enter hfree hn ?_ fun r hr => ?_
  · rw [hpc, Function.update_self]
    exact hq
  · rw [hpc, Function.update_of_ne hr]

omit [DecidableEq κ] in
/-- The holder releases the mutex and moves outside. -/
theorem Monitor.HeldBy.moves_out (h : m.HeldBy fun r => I (pc r)) (hheld : m.holder = some p)
    (hn : n.holder = none) (hpc : pc' = Function.update pc p q) (hq : ¬ I q) :
    n.HeldBy fun r => I (pc' r) := by
  refine h.leave hheld hn ?_ fun r hr => ?_
  · rw [hpc, Function.update_self]
    exact hq
  · rw [hpc, Function.update_of_ne hr]

end Moves

end SistemasOperativos.ConditionMonitor
