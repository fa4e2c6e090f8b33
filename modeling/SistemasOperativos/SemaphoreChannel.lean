import SistemasOperativos.TransitionRuns
import SistemasOperativos.ByteRing
import SistemasOperativos.MachineInt

/-!
# The memory channel with two semaphores and atomic indexes

A put waits for space, takes a ticket from the put index, copies its element
into the slot of the ticket and posts an item. A get does the same with the
roles of the semaphores exchanged. Nothing protects the copies: the semaphores
only count how many calls have finished. The tickets are counted without bound,
and the atomic operations work with the count reduced to `long`.
-/

namespace SistemasOperativos.SemaphoreChannel

open TransitionRuns ByteRing MachineInt
open ByteMemory (Byte)

/-- The shared record. -/
structure MemChannel where
  /-- Value of the semaphore of finished puts. -/
  hasItems : ℕ
  /-- Value of the semaphore of finished gets. -/
  hasSpace : ℕ
  /-- Bytes in a slot. -/
  elemSize : ℕ
  /-- Number of slots. -/
  capacity : ℕ
  /-- Ticket of the next get, of which the record holds the `long`. -/
  iget : ℕ
  /-- Ticket of the next put, of which the record holds the `long`. -/
  iput : ℕ
  /-- The bytes from `buffer` on. -/
  buffer : Buffer

/-- The record that `mc_create` fills in. What the buffer holds is not set. -/
def mcCreate (elemSize capacity : ℕ) (buffer : Buffer) : MemChannel :=
  ⟨0, capacity, elemSize, capacity, 0, 0, buffer⟩

/-- Offset of the slot at the position of a ticket. The remainder has the sign of the
`long` that `atomic_fetch_add` returned. -/
def MemChannel.slot (rb : MemChannel) (ticket : ℕ) : ℤ :=
  (int64 ticket).tmod rb.capacity * rb.elemSize

/-- A call with the bytes its argument points at. -/
inductive Call
  | put (item : List Byte)
  | get
  deriving DecidableEq, Repr

/-- Where a process stands, by its next statement. -/
inductive Pc
  | idle
  /-- `sem_wait(&rb->has_space)`. -/
  | awaitingSpace (item : List Byte)
  /-- `atomic_fetch_add(&rb->iput, 1)`. -/
  | takingPut (item : List Byte)
  /-- The `memcpy` of a put with its ticket. -/
  | copyingPut (item : List Byte) (ticket : ℕ)
  /-- `sem_post(&rb->has_items)`. -/
  | postingItems (ticket : ℕ)
  /-- `sem_wait(&rb->has_items)`. -/
  | awaitingItems
  /-- `atomic_fetch_add(&rb->iget, 1)`. -/
  | takingGet
  /-- The `memcpy` of a get with its ticket. -/
  | copyingGet (ticket : ℕ)
  /-- `sem_post(&rb->has_space)`. -/
  | postingSpace (ticket : ℕ)
  deriving DecidableEq, Repr

/-- A channel with the processes that use it and the history of the run. -/
structure State (π : Type*) where
  /-- The shared record. -/
  rb : MemChannel
  /-- Where each process stands. -/
  pc : π → Pc
  /-- Elements of the puts, in the order of their tickets. -/
  puts : List (List Byte)
  /-- Tickets and elements of the gets, in the order of their copies. -/
  gets : List (ℕ × List Byte)
  /-- Number of posts of `has_items`. -/
  itemPosts : ℕ
  /-- Number of posts of `has_space`. -/
  spacePosts : ℕ

/-- What a process does. -/
inductive Action
  /-- Start a call. -/
  | call (c : Call)
  /-- Execute the next atomic step. -/
  | run
  deriving DecidableEq, Repr

variable {π : Type*} [DecidableEq π]

/-- A process moves on. -/
def State.goto (s : State π) (p : π) (q : Pc) : State π :=
  { s with pc := Function.update s.pc p q }

/-- One atomic step of a process that executes a call. -/
def State.run (s : State π) (p : π) : Option (State π) :=
  match s.pc p with
  | .idle => none
  | .awaitingSpace item =>
    if 0 < s.rb.hasSpace then
      some ({ s with rb.hasSpace := s.rb.hasSpace - 1 }.goto p (.takingPut item))
    else none
  | .takingPut item =>
    some ({ s with rb.iput := s.rb.iput + 1, puts := s.puts ++ [item] }.goto p
      (.copyingPut item s.rb.iput))
  | .copyingPut item ticket =>
    some ({ s with rb.buffer := copy s.rb.buffer (s.rb.slot ticket) item }.goto p
      (.postingItems ticket))
  | .postingItems _ =>
    some ({ s with rb.hasItems := s.rb.hasItems + 1, itemPosts := s.itemPosts + 1 }.goto p .idle)
  | .awaitingItems =>
    if 0 < s.rb.hasItems then
      some ({ s with rb.hasItems := s.rb.hasItems - 1 }.goto p .takingGet)
    else none
  | .takingGet => some ({ s with rb.iget := s.rb.iget + 1 }.goto p (.copyingGet s.rb.iget))
  | .copyingGet ticket =>
    some ({ s with
      gets := s.gets ++ [(ticket, slice s.rb.buffer (s.rb.slot ticket) s.rb.elemSize)] }.goto p
      (.postingSpace ticket))
  | .postingSpace _ =>
    some ({ s with rb.hasSpace := s.rb.hasSpace + 1, spacePosts := s.spacePosts + 1 }.goto p .idle)

/-- One action of a process. The argument of a put points at a whole element. -/
def State.next (s : State π) (l : π × Action) : Option (State π) :=
  match l.2 with
  | .call (.put item) =>
    if s.pc l.1 = .idle ∧ item.length = s.rb.elemSize then
      some (s.goto l.1 (.awaitingSpace item))
    else none
  | .call .get => if s.pc l.1 = .idle then some (s.goto l.1 .awaitingItems) else none
  | .run => s.run l.1

/-- The states right after `mc_create`. -/
def Created (elemSize capacity : ℕ) (s : State π) : Prop :=
  ∃ buffer, s = ⟨mcCreate elemSize capacity buffer, fun _ => .idle, [], [], 0, 0⟩

/-- All runs of a channel. -/
def channel (π : Type*) [DecidableEq π] (elemSize capacity : ℕ) : System (State π) (π × Action) :=
  ofNext (Created elemSize capacity) State.next

end SistemasOperativos.SemaphoreChannel
