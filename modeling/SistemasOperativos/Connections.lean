import Mathlib.Data.Finset.Card
import Mathlib.Tactic
import SistemasOperativos.ByteMemory

/-!
# Descriptors, connections and the bytes that go over them

A process accepts connections under descriptor numbers that are not in use,
and a closed number may be used again. Each connection keeps what was read
from it and what was written to it. A read into a variable of fixed size may
bring fewer bytes than fit, and leaves the rest of the variable as it was.
-/

namespace SistemasOperativos.Connections

open ByteMemory (Byte)

/-- The open descriptors of a process and the traffic of its connections. -/
structure Sockets where
  /-- Descriptors in use. -/
  opened : Finset ℕ
  /-- The connection behind a descriptor. -/
  peer : ℕ → ℕ
  /-- Number of connections accepted so far. -/
  accepted : ℕ
  /-- Bytes read from each connection, in order. -/
  received : ℕ → List Byte
  /-- Bytes written to each connection, in order. -/
  sent : ℕ → List Byte

/-- Descriptors in use before any connection. -/
def Sockets.start (opened : Finset ℕ) : Sockets :=
  ⟨opened, fun _ => 0, 0, fun _ => [], fun _ => []⟩

/-- A new connection under a descriptor that is not in use. -/
def Sockets.accept (n : Sockets) (cfd : ℕ) : Option Sockets :=
  if cfd ∈ n.opened then none
  else some { n with
    opened := insert cfd n.opened
    peer := Function.update n.peer cfd n.accepted
    accepted := n.accepted + 1 }

/-- The descriptor is not in use any more. -/
def Sockets.close (n : Sockets) (fd : ℕ) : Sockets := { n with opened := n.opened.erase fd }

/-- Bytes arrive from the connection behind a descriptor. -/
def Sockets.read (n : Sockets) (fd : ℕ) (bytes : List Byte) : Sockets :=
  { n with
    received := Function.update n.received (n.peer fd) (n.received (n.peer fd) ++ bytes) }

/-- Bytes leave for the connection behind a descriptor. -/
def Sockets.write (n : Sockets) (fd : ℕ) (bytes : List Byte) : Sockets :=
  { n with sent := Function.update n.sent (n.peer fd) (n.sent (n.peer fd) ++ bytes) }

/-- A read into a variable, with what the variable held before. No bytes stand
for the end of the connection or an error. -/
structure Reading (size : ℕ) where
  /-- Contents of the variable before the read. -/
  before : List Byte
  /-- The bytes that the read brings. -/
  bytes : List Byte
  before_length : before.length = size
  bytes_length : bytes.length ≤ size

/-! The servers have messages of 256 bytes. -/

theorem length_zeros : (List.replicate 256 (0 : Byte)).length = 256 := List.length_replicate

theorem length_nil_le : ([] : List Byte).length ≤ 256 := Nat.zero_le _

theorem length_one_le : [(1 : Byte)].length ≤ 256 := by decide

variable {size : ℕ}

/-- Contents of the variable after the read. -/
def Reading.variable (r : Reading size) : List Byte := r.bytes ++ r.before.drop r.bytes.length

/-- The read brings nothing. -/
def Reading.Ended (r : Reading size) : Prop := r.bytes = []

instance (r : Reading size) : Decidable r.Ended := inferInstanceAs (Decidable (r.bytes = []))

/-- A read that brings anything fills the variable. -/
def Reading.Whole (r : Reading size) : Prop := r.bytes = [] ∨ r.bytes.length = size

instance (r : Reading size) : Decidable r.Whole :=
  inferInstanceAs (Decidable (r.bytes = [] ∨ r.bytes.length = size))

/-- Read into a variable and write the variable back. -/
def Sockets.echo (n : Sockets) (fd : ℕ) (r : Reading size) : Sockets :=
  (n.read fd r.bytes).write fd r.variable

/-- To every connection went exactly the bytes that came from it. -/
def Sockets.Mirrors (n : Sockets) : Prop := ∀ c, n.sent c = n.received c

/-- The variable always has its size. -/
theorem Reading.variable_length (r : Reading size) : r.variable.length = size := by
  have hbefore := r.before_length
  have hbytes := r.bytes_length
  rw [Reading.variable, List.length_append, List.length_drop]
  omega

/-- Only a read that fills the variable leaves exactly its bytes in it. -/
theorem Reading.variable_eq_iff (r : Reading size) :
    r.variable = r.bytes ↔ r.bytes.length = size := by
  constructor
  · intro h
    rw [← h]
    exact r.variable_length
  · intro h
    have hrest : r.before.drop r.bytes.length = [] :=
      List.drop_eq_nil_of_le (by rw [r.before_length, h])
    rw [Reading.variable, hrest, List.append_nil]

/-- What an echo adds to the connection behind the descriptor. -/
theorem Sockets.echo_traffic (n : Sockets) (fd : ℕ) (r : Reading size) (c : ℕ) :
    (n.echo fd r).received c = n.received c ++ (if c = n.peer fd then r.bytes else []) ∧
      (n.echo fd r).sent c = n.sent c ++ (if c = n.peer fd then r.variable else []) := by
  simp only [Sockets.echo, Sockets.read, Sockets.write]
  rcases eq_or_ne c (n.peer fd) with rfl | hc
  · simp only [Function.update_self, if_true, and_self]
  · simp only [Function.update_of_ne hc, if_neg hc, List.append_nil, and_self]

/-- An echo keeps the traffic mirrored exactly when the read fills the variable. -/
theorem Sockets.Mirrors.echo_iff {n : Sockets} (h : n.Mirrors) (fd : ℕ) (r : Reading size) :
    (n.echo fd r).Mirrors ↔ r.bytes.length = size := by
  rw [← r.variable_eq_iff]
  constructor
  · intro hm
    have hpeer := hm (n.peer fd)
    rw [(n.echo_traffic fd r _).1, (n.echo_traffic fd r _).2, h, if_pos rfl, if_pos rfl] at hpeer
    exact List.append_cancel_left hpeer
  · intro hv c
    rw [(n.echo_traffic fd r c).1, (n.echo_traffic fd r c).2, h, hv]

/-- Traffic that stays the same stays mirrored. -/
theorem Sockets.Mirrors.congr {n m : Sockets} (h : n.Mirrors) (hreceived : m.received = n.received)
    (hsent : m.sent = n.sent) : m.Mirrors := fun c => by
  rw [hreceived, hsent]
  exact h c

/-- A step leaves the traffic alone, or echoes one read. The last argument says
that a read of the step, if there is one, fills the variable. -/
def Sockets.Serves (n m : Sockets) (size : ℕ) (whole : Prop) : Prop :=
  (m.received = n.received ∧ m.sent = n.sent ∧ whole) ∨
    ∃ fd, ∃ r : Reading size, m = n.echo fd r ∧ ¬ r.Ended ∧ (whole ↔ r.Whole)

/-- Such a step keeps the traffic mirrored exactly when its read fills the variable. -/
theorem Sockets.Serves.mirrors_iff {n m : Sockets} {whole : Prop} (h : n.Serves m size whole)
    (hn : n.Mirrors) : m.Mirrors ↔ whole := by
  rcases h with ⟨hreceived, hsent, hwhole⟩ | ⟨fd, r, rfl, hstays, hwhole⟩
  · exact ⟨fun _ => hwhole, fun _ => hn.congr hreceived hsent⟩
  · rw [hn.echo_iff fd r, hwhole]
    exact (or_iff_right hstays).symm

/-- A new connection takes a number that was not in use and leaves the traffic alone. -/
theorem Sockets.accept_spec {n m : Sockets} {cfd : ℕ} (h : n.accept cfd = some m) :
    cfd ∉ n.opened ∧ m.opened = insert cfd n.opened ∧ m.received = n.received ∧
      m.sent = n.sent := by
  simp only [Sockets.accept, Option.ite_none_left_eq_some, Option.some.injEq] at h
  obtain ⟨hfree, rfl⟩ := h
  exact ⟨hfree, rfl, rfl, rfl⟩

/-- Some descriptor is not in use. -/
theorem exists_unused (opened : Finset ℕ) : ∃ fd, fd ∉ opened :=
  Infinite.exists_notMem_finset opened

/-- The lowest descriptor that is not in use. -/
def lowest (opened : Finset ℕ) : ℕ := Nat.find (exists_unused opened)

/-- It is found by looking at the lower ones. -/
theorem lowest_eq {opened : Finset ℕ} {fd : ℕ} (hfree : fd ∉ opened)
    (hbelow : ∀ k < fd, k ∈ opened) : lowest opened = fd :=
  (Nat.find_eq_iff (exists_unused opened)).mpr ⟨hfree, fun k hk => not_not.mpr (hbelow k hk)⟩

/-- As many descriptors are in use as there are lower ones, or more. -/
theorem lowest_le_card (opened : Finset ℕ) : lowest opened ≤ opened.card := by
  have hbelow : Finset.range (lowest opened) ⊆ opened := by
    intro fd hfd
    exact not_not.mp (Nat.find_min (exists_unused opened) (Finset.mem_range.mp hfd))
  have hcard := Finset.card_le_card hbelow
  rwa [Finset.card_range] at hcard

end SistemasOperativos.Connections
