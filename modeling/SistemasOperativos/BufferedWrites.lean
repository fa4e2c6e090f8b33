import Mathlib.Data.List.Infix
import Mathlib.Tactic

/-!
# Writes that refer to a buffer

A write names a region of a buffer and goes out later, in parts, with the bytes
that the region holds at that moment. Writes go out in the order in which they
were submitted. A stream that writes back what was read into its one buffer does
so faithfully as long as the buffer is filled only while no write is pending.
-/

namespace SistemasOperativos.BufferedWrites

variable {α : Type*}

/-- The part of the buffer that a write has still to send. -/
structure Region where
  offset : ℕ
  /-- First index behind the region. -/
  stop : ℕ
  deriving DecidableEq, Repr

/-- A stream with one buffer and the traffic on it. -/
structure Stream (α : Type*) where
  buffer : List α
  /-- Writes that were submitted and have not completed, oldest first. -/
  pending : List Region
  /-- A write has failed, and nothing goes out any more. -/
  broken : Bool
  /-- All that was read, in order. -/
  received : List α
  /-- All that went out, in order. -/
  sent : List α

/-- A stream without traffic. -/
def Stream.new : Stream α := ⟨[], [], false, [], []⟩

/-- Read into the buffer. -/
def Stream.fill (s : Stream α) (xs : List α) : Stream α :=
  { s with buffer := xs ++ s.buffer.drop xs.length, received := s.received ++ xs }

/-- Submit a write of the first elements of the buffer. -/
def Stream.submit (s : Stream α) (n : ℕ) : Stream α :=
  { s with pending := s.pending ++ [⟨0, n⟩] }

/-- What the buffer holds in a region. -/
def Stream.contents (s : Stream α) (r : Region) : List α :=
  (s.buffer.drop r.offset).take (r.stop - r.offset)

/-- The next elements of the oldest write go out. -/
def Stream.send (s : Stream α) (n : ℕ) : Option (Stream α) :=
  match s.pending with
  | [] => none
  | r :: rest =>
    if s.broken = false ∧ r.offset + n ≤ r.stop then
      some { s with
        sent := s.sent ++ s.contents ⟨r.offset, r.offset + n⟩
        pending := ⟨r.offset + n, r.stop⟩ :: rest }
    else none

/-- The oldest write completes, with all its elements sent, or it fails. -/
def Stream.complete (s : Stream α) (ok : Bool) : Option (Stream α) :=
  match s.pending with
  | [] => none
  | r :: rest =>
    if ok then if r.offset = r.stop then some { s with pending := rest } else none
    else some { s with pending := rest, broken := true }

/-- What went out is what was read, up to one pending write, whose region holds the rest. -/
structure Stream.Echoing (s : Stream α) : Prop where
  /-- What went out was read, in this order. -/
  faithful : s.sent <+: s.received
  /-- At most one write is pending. -/
  single : s.pending.length ≤ 1
  /-- What was read and has not gone out is in the region of the pending write. -/
  rest : s.broken = false → s.received = s.sent ++ s.pending.flatMap s.contents

variable {s t : Stream α} {n : ℕ} {xs : List α}

theorem Stream.echoing_new : (Stream.new : Stream α).Echoing :=
  ⟨List.prefix_refl _, Nat.zero_le 1, fun _ => rfl⟩

/-- A read that is written back whole, while no write is pending. -/
theorem Stream.Echoing.fill_submit (h : s.Echoing) (hp : s.pending = []) (xs : List α) :
    ((s.fill xs).submit xs.length).Echoing := by
  have hpending : ((s.fill xs).submit xs.length).pending = [⟨0, xs.length⟩] := by
    show s.pending ++ [⟨0, xs.length⟩] = _
    rw [hp, List.nil_append]
  refine ⟨h.faithful.trans (List.prefix_append _ _), ?_, fun hb => ?_⟩
  · rw [hpending]
    exact Nat.le_refl 1
  · have hbefore := h.rest hb
    rw [hp, List.flatMap_nil, List.append_nil] at hbefore
    rw [hpending]
    show s.received ++ xs = s.sent ++ ([⟨0, xs.length⟩] : List Region).flatMap _
    rw [List.flatMap_singleton, hbefore]
    simp [Stream.contents, Stream.fill, Stream.submit]

/-- The beginning of a region and the rest of it. -/
theorem Stream.contents_append (s : Stream α) {r : Region} (hn : r.offset + n ≤ r.stop) :
    s.contents ⟨r.offset, r.offset + n⟩ ++ s.contents ⟨r.offset + n, r.stop⟩ = s.contents r := by
  have hlength : r.stop - r.offset = n + (r.stop - (r.offset + n)) := by omega
  simp only [Stream.contents, Nat.add_sub_cancel_left]
  rw [hlength, List.take_add, List.drop_drop]

/-- Sending more of the pending write. -/
theorem Stream.Echoing.send (h : s.Echoing) (hs : s.send n = some t) : t.Echoing := by
  unfold Stream.send at hs
  cases hp : s.pending with
  | nil =>
    rw [hp] at hs
    cases hs
  | cons r rest =>
    simp only [hp, Option.ite_none_right_eq_some, Option.some.injEq] at hs
    obtain ⟨⟨hb, hn⟩, rfl⟩ := hs
    have hsingle := h.single
    rw [hp, List.length_cons] at hsingle
    have hrest : rest = [] := List.eq_nil_of_length_eq_zero (by omega)
    have hbefore := h.rest hb
    rw [hp, hrest, List.flatMap_singleton, ← s.contents_append hn, ← List.append_assoc] at hbefore
    subst hrest
    refine ⟨?_, Nat.le_refl 1, fun _ => ?_⟩
    · exact ⟨_, hbefore.symm⟩
    · rw [hbefore]
      simp [Stream.contents]

/-- The pending write completes or fails. -/
theorem Stream.Echoing.complete (h : s.Echoing) {ok : Bool} (hs : s.complete ok = some t) :
    t.Echoing := by
  unfold Stream.complete at hs
  cases hp : s.pending with
  | nil =>
    rw [hp] at hs
    cases hs
  | cons r rest =>
    have hsingle := h.single
    rw [hp, List.length_cons] at hsingle
    have hrest : rest = [] := List.eq_nil_of_length_eq_zero (by omega)
    subst hrest
    rw [hp] at hs
    cases ok with
    | true =>
      simp only [if_true, Option.ite_none_right_eq_some, Option.some.injEq] at hs
      obtain ⟨hdone, rfl⟩ := hs
      refine ⟨h.faithful, Nat.zero_le 1, fun hb => ?_⟩
      have hbefore := h.rest hb
      rw [hp, List.flatMap_singleton] at hbefore
      rw [hbefore]
      simp [Stream.contents, hdone]
    | false =>
      simp only [Bool.false_eq_true, if_false, Option.some.injEq] at hs
      subst hs
      exact ⟨h.faithful, Nat.zero_le 1, nofun⟩

end SistemasOperativos.BufferedWrites
