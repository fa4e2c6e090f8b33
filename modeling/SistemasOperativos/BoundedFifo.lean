import SistemasOperativos.TransitionRuns
import Mathlib.Tactic

/-!
# Bounded first-in first-out channels

The abstract channel remembers everything that entered and everything that
left. What is pending is exactly what entered and has not left, in order, and
it never exceeds the capacity.
-/

namespace SistemasOperativos.BoundedFifo

open TransitionRuns

variable {α : Type*}

/-- A channel with its history. -/
structure Fifo (α : Type*) where
  /-- Elements that entered and have not left, oldest first. -/
  queue : List α
  /-- All elements that entered, oldest first. -/
  entered : List α
  /-- All elements that left, oldest first. -/
  left : List α

/-- Operations on a channel. -/
inductive Op (α : Type*) where
  | put (a : α)
  | get

/-- A put needs space and a get needs an element. -/
def Fifo.next (capacity : ℕ) (f : Fifo α) : Op α → Option (Fifo α)
  | .put a =>
    if f.queue.length < capacity then
      some { f with queue := f.queue ++ [a], entered := f.entered ++ [a] }
    else none
  | .get =>
    match f.queue with
    | [] => none
    | a :: rest => some { f with queue := rest, left := f.left ++ [a] }

/-- The channel that starts empty. -/
def fifo (α : Type*) (capacity : ℕ) : System (Fifo α) (Op α) :=
  ofNext (fun f => f = ⟨[], [], []⟩) (Fifo.next capacity)

/-- A put with space appends its element. -/
theorem Fifo.put_step {capacity : ℕ} {f : Fifo α} (h : f.queue.length < capacity) (a : α) :
    (fifo α capacity).Steps f ⟨f.queue ++ [a], f.entered ++ [a], f.left⟩ := by
  refine .single ⟨.put a, ?_⟩
  show Fifo.next capacity f (.put a) = _
  rw [Fifo.next, if_pos h]

/-- A get removes the oldest element. -/
theorem Fifo.get_step {capacity : ℕ} {f : Fifo α} {a : α} {rest : List α}
    (h : f.queue = a :: rest) :
    (fifo α capacity).Steps f ⟨rest, f.entered, f.left ++ [a]⟩ := by
  refine .single ⟨.get, ?_⟩
  show Fifo.next capacity f .get = _
  rw [Fifo.next, h]

/-- What entered is what left followed by what is pending. -/
structure Fifo.Delivering (capacity : ℕ) (f : Fifo α) : Prop where
  /-- Elements leave in the order in which they entered. -/
  history : f.entered = f.left ++ f.queue
  /-- The pending elements fit. -/
  bounded : f.queue.length ≤ capacity

/-- Every reachable channel delivers in order and stays within its capacity. -/
theorem delivering {capacity : ℕ} {f : Fifo α} (h : (fifo α capacity).Reachable f) :
    f.Delivering capacity := by
  refine System.Reachable.invariant (I := Fifo.Delivering capacity) ?_ ?_ h
  · rintro f rfl
    exact ⟨rfl, Nat.zero_le _⟩
  · rintro f op g - hf hstep
    have hnext : Fifo.next capacity f op = some g := hstep
    cases op with
    | put a =>
      simp only [Fifo.next, Option.ite_none_right_eq_some, Option.some.injEq] at hnext
      obtain ⟨hroom, rfl⟩ := hnext
      constructor
      · simp only [hf.history, List.append_assoc]
      · simp only [List.length_append, List.length_singleton]
        omega
    | get =>
      cases hq : f.queue with
      | nil => simp [Fifo.next, hq] at hnext
      | cons a rest =>
        simp only [Fifo.next, hq, Option.some.injEq] at hnext
        subst hnext
        have hlen := hf.bounded
        rw [hq, List.length_cons] at hlen
        constructor
        · simp only [hf.history, hq, List.append_assoc, List.singleton_append]
        · show rest.length ≤ capacity
          omega

end SistemasOperativos.BoundedFifo
