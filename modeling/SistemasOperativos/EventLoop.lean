import Mathlib.Data.Int.Notation
import Mathlib.Tactic
import SistemasOperativos.TransitionRuns

/-!
# The event loop with callbacks

A handle is allocated for every registered descriptor, and the epoll set keeps
the pointer to it. `process` goes through the events of one batch and calls
back, while callbacks register descriptors, set callbacks and close handles,
their own or others. A pointer stands for the allocation that it came from, so
a handle that was freed never becomes another one.
-/

namespace SistemasOperativos.EventLoop

open TransitionRuns

/-- `EPOLLIN`. -/
abbrev epollIn : BitVec 32 := 0x001

/-- `EPOLLERR`. -/
abbrev epollErr : BitVec 32 := 0x008

/-- `struct async_handle_impl`, with none for a null pointer. -/
structure Handle (κ χ : Type) where
  fd : ℕ
  cb : Option κ
  ctx : Option χ

/-- `struct epoll_event`, with the descriptor that it is about. -/
structure Event where
  /-- `data.ptr`. -/
  ptr : ℕ
  events : BitVec 32
  /-- The descriptor that was registered. -/
  fd : ℕ
  deriving DecidableEq, Repr

/-- The test of `process`. -/
def Event.Ready (e : Event) : Prop := e.events &&& (epollIn ||| epollErr) ≠ 0

instance (e : Event) : Decidable e.Ready := inferInstanceAs (Decidable (_ ≠ _))

/-- A callback with its arguments. -/
structure Call (κ χ : Type) where
  cb : κ
  ah : ℕ
  ctx : Option χ

/-- Where the program stands. -/
inductive Phase (κ χ : Type)
  /-- Before `ap_loop`. -/
  | setup
  /-- `epoll_wait`. -/
  | waiting
  /-- The loop of `process`, with the events that are left. -/
  | processing (rest : List Event)
  /-- A callback, with the events that are left after it. -/
  | calling (call : Call κ χ) (rest : List Event)

/-- The handles, the epoll set, the static variables and where the program stands. -/
structure State (κ χ : Type) where
  /-- Handles that are allocated. -/
  heap : ℕ → Option (Handle κ χ)
  /-- Number of allocations so far. -/
  allocated : ℕ
  /-- `data.ptr` of the registered descriptors. -/
  interest : ℕ → Option ℕ
  nclients : ℤ
  phase : Phase κ χ

/-- What happens next. -/
inductive Action (κ χ : Type)
  /-- `ap_regist_fd`, and whether `epoll_ctl` takes a descriptor that is not registered. -/
  | regist (fd : ℕ) (granted : Bool)
  /-- `ap_read_async` or `ap_accept_async`. -/
  | async (ah : ℕ) (cb : κ) (ctx : Option χ)
  /-- `ap_close`. -/
  | close (ah : ℕ)
  /-- The callback returns. -/
  | ret
  /-- `ap_loop` is called. -/
  | loop
  /-- `epoll_wait` returns. -/
  | wait (batch : List Event)
  /-- The next event is processed. -/
  | run

variable {κ χ : Type}

/-- Events of the batch that are left. -/
def Phase.rest : Phase κ χ → List Event
  | .processing rest | .calling _ rest => rest
  | _ => []

/-- Whether the program may call the loop's functions. -/
def Phase.user : Phase κ χ → Bool
  | .setup | .calling _ _ => true
  | _ => false

/-- `add_client`. Its caller does not look at the result. -/
def State.addClient (s : State κ χ) (cfd ah : ℕ) (granted : Bool) : State κ χ :=
  if granted ∧ s.interest cfd = none then
    { s with
      interest := Function.update s.interest cfd (some ah)
      nclients := s.nclients + 1 }
  else s

/-- `rem_client`. Its caller does not look at the result. -/
def State.remClient (s : State κ χ) (cfd : ℕ) : State κ χ :=
  if s.interest cfd = none then s
  else
    { s with
      interest := Function.update s.interest cfd none
      nclients := s.nclients - 1 }

/-- `ap_regist_fd`. The handle is the one that is allocated next. -/
def State.registFd (s : State κ χ) (fd : ℕ) (granted : Bool) : State κ χ :=
  State.addClient { s with
    heap := Function.update s.heap s.allocated (some ⟨fd, none, none⟩)
    allocated := s.allocated + 1 } fd s.allocated granted

/-- `ap_do_async`, for `ap_accept_async` and `ap_read_async`. -/
def State.doAsync (s : State κ χ) (ah : ℕ) (cb : κ) (ctx : Option χ) : Option (State κ χ) :=
  (s.heap ah).map fun h =>
    { s with heap := Function.update s.heap ah (some { h with cb := some cb, ctx := ctx }) }

/-- `ap_close`. -/
def State.close (s : State κ χ) (ah : ℕ) : Option (State κ χ) :=
  (s.heap ah).map fun h =>
    { s.remClient h.fd with heap := Function.update (s.remClient h.fd).heap ah none }

/-- `ap_getfd`. -/
def State.getfd (s : State κ χ) (ah : ℕ) : Option ℕ := (s.heap ah).map Handle.fd

/-- The body of the loop of `process`. The pointer of the event has to be valid. -/
def State.processEvent (s : State κ χ) (e : Event) (rest : List Event) : Option (State κ χ) :=
  if e.Ready then
    (s.heap e.ptr).map fun h =>
      match h.cb with
      | none => { s with phase := .processing rest }
      | some cb => { s with phase := .calling ⟨cb, e.ptr, h.ctx⟩ rest }
  else some { s with phase := .processing rest }

/-- What `epoll_wait` may report: registered descriptors with the pointers given
at registration, each at most once, and no more than asked for. -/
structure State.Reports (s : State κ χ) (batch : List Event) : Prop where
  registered : ∀ e ∈ batch, s.interest e.fd = some e.ptr
  once : (batch.map Event.fd).Nodup
  length_le : batch.length ≤ max s.nclients 0

instance (s : State κ χ) (batch : List Event) : Decidable (s.Reports batch) :=
  decidable_of_iff ((∀ e ∈ batch, s.interest e.fd = some e.ptr) ∧
      (batch.map Event.fd).Nodup ∧ batch.length ≤ max s.nclients 0)
    ⟨fun h => ⟨h.1, h.2.1, h.2.2⟩, fun h => ⟨h.registered, h.once, h.length_le⟩⟩

/-- One step of the program. -/
def State.next (s : State κ χ) : Action κ χ → Option (State κ χ)
  | .regist fd granted => if s.phase.user then some (s.registFd fd granted) else none
  | .async ah cb ctx => if s.phase.user then s.doAsync ah cb ctx else none
  | .close ah => if s.phase.user then s.close ah else none
  | .ret =>
    match s.phase with
    | .calling _ rest => some { s with phase := .processing rest }
    | _ => none
  | .loop =>
    match s.phase with
    | .setup => some { s with phase := .waiting }
    | _ => none
  | .wait batch =>
    match s.phase with
    | .waiting => if s.Reports batch then some { s with phase := .processing batch } else none
    | _ => none
  | .run =>
    match s.phase with
    | .processing [] => some { s with phase := .waiting }
    | .processing (e :: rest) => s.processEvent e rest
    | _ => none

/-- After `ap_init`. -/
def initial : State κ χ := ⟨fun _ => none, 0, fun _ => none, 0, .setup⟩

/-- All runs of the loop, whatever the callbacks do. -/
def loop (κ χ : Type) : System (State κ χ) (Action κ χ) := ofNext (fun s => s = initial) State.next

/-- The next event, when `process` reads its handle, has a handle that was not
closed, and when it calls back, one that is registered. -/
def State.Safe (s : State κ χ) : Prop := ∀ e rest, s.phase = .processing (e :: rest) → e.Ready →
  ∃ h, s.heap e.ptr = some h ∧ (h.cb.isSome → s.interest h.fd = some e.ptr)

/-- A callback does not close a handle on a descriptor with an event that is left. -/
def State.Closable (s : State κ χ) (a : Action κ χ) : Prop :=
  ∀ ah h, a = .close ah → s.heap ah = some h → ∀ e ∈ s.phase.rest, e.Ready → e.fd ≠ h.fd

/-- The steps of the program, with what each one found. -/
inductive Moves (s : State κ χ) : Action κ χ → State κ χ → Prop
  | registered (fd : ℕ) (granted : Bool) : Moves s (.regist fd granted) (s.registFd fd granted)
  | started (ah : ℕ) (cb : κ) (ctx : Option χ) (h : Handle κ χ) : s.heap ah = some h →
      Moves s (.async ah cb ctx)
        { s with heap := Function.update s.heap ah (some { h with cb := some cb, ctx := ctx }) }
  | closed (ah : ℕ) (h : Handle κ χ) : s.heap ah = some h →
      Moves s (.close ah)
        { s.remClient h.fd with heap := Function.update (s.remClient h.fd).heap ah none }
  | returned (call : Call κ χ) (rest : List Event) : s.phase = .calling call rest →
      Moves s .ret { s with phase := .processing rest }
  | looped : Moves s .loop { s with phase := .waiting }
  | reported (batch : List Event) : s.Reports batch →
      Moves s (.wait batch) { s with phase := .processing batch }
  | finished : Moves s .run { s with phase := .waiting }
  | passed (e : Event) (rest : List Event) : s.phase = .processing (e :: rest) →
      Moves s .run { s with phase := .processing rest }
  | called (e : Event) (rest : List Event) (call : Call κ χ) :
      s.phase = .processing (e :: rest) → e.Ready → call.ah = e.ptr →
      Moves s .run { s with phase := .calling call rest }

/-- Every action is one of these steps. -/
theorem next_moves {s t : State κ χ} {a : Action κ χ} (h : s.next a = some t) : Moves s a t := by
  cases a with
  | regist fd granted =>
    simp only [State.next, Option.ite_none_right_eq_some, Option.some.injEq] at h
    obtain ⟨-, rfl⟩ := h
    exact .registered fd granted
  | async ah cb ctx =>
    simp only [State.next, State.doAsync, Option.ite_none_right_eq_some, Option.map_eq_some_iff] at h
    obtain ⟨-, hd, hlive, rfl⟩ := h
    exact .started ah cb ctx hd hlive
  | close ah =>
    simp only [State.next, State.close, Option.ite_none_right_eq_some, Option.map_eq_some_iff] at h
    obtain ⟨-, hd, hlive, rfl⟩ := h
    exact .closed ah hd hlive
  | ret =>
    simp only [State.next] at h
    split at h <;> cases h
    next call rest hphase => exact .returned call rest hphase
  | loop =>
    simp only [State.next] at h
    split at h <;> cases h
    exact .looped
  | wait batch =>
    simp only [State.next] at h
    split at h
    next =>
      simp only [Option.ite_none_right_eq_some, Option.some.injEq] at h
      obtain ⟨hreports, rfl⟩ := h
      exact .reported batch hreports
    next => cases h
  | run =>
    simp only [State.next] at h
    split at h
    next =>
      cases h
      exact .finished
    next e rest hphase =>
      simp only [State.processEvent] at h
      split at h
      next hready =>
        obtain ⟨hd, -, rfl⟩ := Option.map_eq_some_iff.mp h
        split
        next => exact .passed e rest hphase
        next cb _ => exact .called e rest _ hphase hready rfl
      next =>
        cases h
        exact .passed e rest hphase
    next => cases h

end SistemasOperativos.EventLoop
