import SistemasOperativos.TransitionRuns
import SistemasOperativos.BufferedWrites
import SistemasOperativos.ByteMemory

/-!
# The echo server over libuv

The callbacks of the server and what libuv does between them: it reads into the
buffer that `alloc_buffer` names, and sends a submitted write in parts, at any
later time, from the buffer as it is then. No callback is delivered for a handle
after it was closed. Channels are numbered in the order of their connections,
and what malloc left in a buffer is not part of it, since it is never sent.
-/

namespace SistemasOperativos.LibuvServer

open TransitionRuns BufferedWrites
open ByteMemory (Byte)

/-- `BUFFER_SIZE`. -/
abbrev bufferSize : ℕ := 4096

/-- The variables of the server and its handles. -/
structure State where
  nclients : ℤ
  /-- `to_destroy`. -/
  toDestroy : Bool
  /-- The `channel_t` of each connection, with its socket. -/
  channel : ℕ → Stream Byte
  /-- Number of connections accepted so far. -/
  accepted : ℕ
  /-- Connections accepted and not yet closed. -/
  opened : Finset ℕ
  /-- Calls of `uv_close` on `input`. -/
  inputCloses : ℕ
  /-- Calls of `uv_tcp_close_reset` on `server`. -/
  serverCloses : ℕ
  /-- Calls of `read_stdin_completion`. -/
  requests : ℕ
  /-- The `req` of a channel was submitted while a write that uses it was pending. -/
  resubmitted : ℕ → Bool

/-- Change the channel of a connection. -/
def State.setChannel (s : State) (c : ℕ) (chn : Stream Byte) : State :=
  { s with channel := Function.update s.channel c chn }

/-- `uv_close` on `input` and `uv_tcp_close_reset` on `server`. -/
def State.closeHandles (s : State) : State :=
  { s with inputCloses := s.inputCloses + 1, serverCloses := s.serverCloses + 1 }

/-- `read_stdin_completion`. -/
def State.readStdinCompletion (s : State) : State :=
  let s := { s with requests := s.requests + 1 }
  if s.nclients = 0 then s.closeHandles else { s with toDestroy := true }

/-- `uv_write` of the first bytes of the channel's buffer with the channel's `req`. -/
def State.uvWrite (s : State) (c n : ℕ) : State :=
  { s.setChannel c ((s.channel c).submit n) with
    resubmitted := Function.update s.resubmitted c
      (s.resubmitted c || !(s.channel c).pending.isEmpty) }

/-- `nread` of a read callback, with the bytes. -/
inductive Nread
  | bytes (xs : List Byte)
  | none
  /-- End of file or an error. -/
  | ended
  deriving DecidableEq

/-- `read_completion`, after libuv has read into the buffer. -/
def State.readCompletion (s : State) (c : ℕ) : Nread → State
  | .bytes xs => s.uvWrite c xs.length
  | .none => s
  | .ended =>
    let s := { s with nclients := s.nclients - 1, opened := s.opened.erase c }
    if s.toDestroy = true ∧ s.nclients = 0 then s.closeHandles else s

/-- `on_new_connection`: the status and what `uv_accept` returns. A channel that
is not accepted is closed at once. -/
def State.onNewConnection (s : State) (status accepts : Bool) : State :=
  if status = true ∧ accepts = true then
    { s.setChannel s.accepted .new with
      nclients := s.nclients + 1
      accepted := s.accepted + 1
      opened := insert s.accepted s.opened }
  else s

/-- libuv has read into the buffer. -/
def State.filled (s : State) (c : ℕ) : Nread → State
  | .bytes xs => s.setChannel c ((s.channel c).fill xs)
  | _ => s

/-- A number of bytes that libuv may report with a read callback. -/
def Nread.Fits : Nread → Prop
  | .bytes xs => xs ≠ [] ∧ xs.length ≤ bufferSize
  | _ => True

instance (r : Nread) : Decidable r.Fits := by
  cases r <;> unfold Nread.Fits <;> infer_instance

/-- What happens next. -/
inductive Action
  | newConnection (status accepts : Bool)
  | read (c : ℕ) (nread : Nread)
  | readStdin
  /-- libuv sends so many bytes of the oldest write. -/
  | send (c n : ℕ)
  /-- libuv calls `write_completion`, with or without success. -/
  | written (c : ℕ) (ok : Bool)
  deriving DecidableEq

/-- One step. -/
def State.next (s : State) : Action → Option State
  | .newConnection status accepts =>
    if s.serverCloses = 0 then some (s.onNewConnection status accepts) else none
  | .read c nread =>
    if c ∈ s.opened ∧ nread.Fits then some ((s.filled c nread).readCompletion c nread) else none
  | .readStdin => if s.inputCloses = 0 then some s.readStdinCompletion else none
  | .send c n => if c ∈ s.opened then ((s.channel c).send n).map (s.setChannel c) else none
  | .written c ok => ((s.channel c).complete ok).map (s.setChannel c)

/-- The server when `main` calls `uv_run`. -/
def initial : State where
  nclients := 0
  toDestroy := false
  channel _ := .new
  accepted := 0
  opened := ∅
  inputCloses := 0
  serverCloses := 0
  requests := 0
  resubmitted _ := false

/-- All runs of the server. -/
def server : System State Action := ofNext (fun s => s = initial) State.next

end SistemasOperativos.LibuvServer
