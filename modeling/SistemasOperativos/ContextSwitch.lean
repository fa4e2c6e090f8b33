import Mathlib.Tactic
import SistemasOperativos.StackMachine
import SistemasOperativos.TransitionRuns

/-!
# Switching contexts

The two assembly routines of ctxswitch.s, instruction by instruction, with
the layout of the initial context made by `ut_create`. A suspended thread has
its registers in a frame on its own stack and the address of the frame in its
descriptor. Every routine writes its own frame, its own descriptor and one
static variable, so the frames of the other threads stay as they were saved.
-/

namespace SistemasOperativos.ContextSwitch

open TransitionRuns ByteMemory StackMachine

/-- `UTHREAD_CONTEXT`: the words of a saved frame, in the order of the fields. -/
structure UthreadContext where
  r15 : Word
  r14 : Word
  r13 : Word
  r12 : Word
  rbx : Word
  rbp : Word
  /-- Address to return to. -/
  retAddr : Word

/-- The fields from the lowest address upwards. -/
def UthreadContext.words (c : UthreadContext) : List Word :=
  [c.r15, c.r14, c.r13, c.r12, c.rbx, c.rbp, c.retAddr]

/-- `sizeof (UTHREAD_CONTEXT)`. -/
def sizeofContext : ℕ := 56

/-- `STACK_SIZE`. -/
def stackSize : ℕ := 8 * 4096

/-- Addresses fixed by the linker. -/
structure Image where
  /-- The variable `running_thread`. -/
  runningThread : ℕ
  /-- Entry point of `internal_start`. -/
  internalStart : Word
  /-- Entry point of `cleanup_thread`. -/
  cleanupThread : Word
  /-- The instruction after the call in `internal_exit`. -/
  afterCleanup : Word

/-- Registers in the order in which `context_switch` pushes them. -/
def pushed : List Reg := [.rbp, .rbx, .r12, .r13, .r14, .r15]

/-- Registers in the order in which both routines pop them. -/
def popped : List Reg := [.r15, .r14, .r13, .r12, .rbx, .rbp]

/-- `context_switch`. -/
def contextSwitch (image : Image) : List Instr :=
  [.push .rbp, .push .rbx, .push .r12, .push .r13, .push .r14, .push .r15,
   .movToMem .rsp .rdi, .movToVar .rsi image.runningThread, .movFromMem .rsi .rsp,
   .pop .r15, .pop .r14, .pop .r13, .pop .r12, .pop .rbx, .pop .rbp, .ret]

/-- `internal_exit`. -/
def internalExit (image : Image) : List Instr :=
  [.movToVar .rsi image.runningThread, .movFromMem .rsi .rsp,
   .call image.cleanupThread image.afterCleanup,
   .pop .r15, .pop .r14, .pop .r13, .pop .r12, .pop .rbx, .pop .rbp, .ret]

/-- The context that `ut_create` lays out. -/
def initialContext (image : Image) : UthreadContext where
  r15 := 0x77777777
  r14 := 0x66666666
  r13 := 0x55555555
  r12 := 0x44444444
  rbx := 0x11111111
  rbp := 0x00000000
  retAddr := image.internalStart

/-- Address of the initial context on a new stack. -/
def initialFrame (stack : Word) : ℕ := stack.toNat + stackSize - sizeofContext - 8

/-- The writes of `ut_create` in the blocks that malloc returned: the fields
`stack`, `function`, `argument` and `context` of the descriptor, and the stack. -/
def utCreate (image : Image) (thread stack function argument : Word) (m : Memory) : Memory :=
  let m := store m (thread.toNat + 40) stack
  let m : Memory := fun x => if stack.toNat ≤ x ∧ x < stack.toNat + stackSize then 0 else m x
  let m := store m (thread.toNat + 24) function
  let m := store m (thread.toNat + 32) argument
  let m := store m thread.toNat (BitVec.ofNat 64 (initialFrame stack))
  storeWords m (initialFrame stack) (initialContext image).words

/-- A range of addresses, without its upper end. -/
structure Region where
  lo : ℕ
  hi : ℕ

/-- Whether a range has an address. -/
def Region.Contains (r : Region) (a : ℕ) : Prop := r.lo ≤ a ∧ a < r.hi

/-- Ranges without a common address. -/
def Region.Apart (r s : Region) : Prop := r.hi ≤ s.lo ∨ s.hi ≤ r.lo

/-- The field `context` of a descriptor. -/
def contextField (thread : Word) : Region := ⟨thread.toNat, thread.toNat + 8⟩

/-- The variable `running_thread`. -/
def runningVar (image : Image) : Region := ⟨image.runningThread, image.runningThread + 8⟩

/-- What a thread was when it was suspended: the values that its registers
must have again when it is resumed. -/
structure Suspension where
  /-- Stack pointer after the return. -/
  rsp : Word
  /-- The other registers, and the address to return to. -/
  context : UthreadContext

/-- The machine with the bookkeeping of the threads. -/
structure World where
  /-- Registers and memory. -/
  machine : Machine
  /-- Descriptor of the thread that has the processor. -/
  current : Word
  /-- Stack of each thread. -/
  stackOf : Word → Region
  /-- The suspended threads, as they were at their own call. -/
  saved : Word → Option Suspension

/-- A thread that was created and has not exited. -/
def World.Live (x : World) (t : Word) : Prop := t = x.current ∨ x.saved t ≠ none

/-- The saved frame of a suspended thread. -/
def Suspension.frame (s : Suspension) : Region := ⟨s.rsp.toNat - sizeofContext, s.rsp.toNat⟩

/-- What code other than the switching routines leaves alone: saved frames and
the pointers to them. -/
def World.Protected (x : World) (a : ℕ) : Prop :=
  ∃ t s, x.saved t = some s ∧ ((contextField t).Contains a ∨ s.frame.Contains a)

/-- The machine when `internal_exit` enters `cleanup_thread`. -/
def cleanupEntry (image : Image) (m : Machine) : Machine :=
  (run (fun _ m => m) [.movToVar .rsi image.runningThread, .movFromMem .rsi .rsp] m).pushWord
    image.afterCleanup

/-- What `internal_exit` relies on when it calls `cleanup_thread` on the stack
of the next thread: the routine keeps the registers that the System V
convention says, and writes only below its stack pointer on that stack, or
outside of everything that is still in use. -/
structure CleanupContract (image : Image) (x : World) (next : Word)
    (cleanup : Word → Machine → Machine) : Prop where
  rsp : (cleanup image.cleanupThread (cleanupEntry image x.machine)).regs .rsp =
    (cleanupEntry image x.machine).regs .rsp + 8
  callee_saved : ∀ r ∈ popped, (cleanup image.cleanupThread (cleanupEntry image x.machine)).regs r =
    (cleanupEntry image x.machine).regs r
  writes : ∀ a, (cleanup image.cleanupThread (cleanupEntry image x.machine)).mem a ≠
      (cleanupEntry image x.machine).mem a →
    (x.stackOf next).lo ≤ a ∧ a < (cleanupEntry image x.machine).sp ∨
    ¬(runningVar image).Contains a ∧
      ∀ t, x.saved t ≠ none → ¬(x.stackOf t).Contains a ∧ ¬(contextField t).Contains a

/-- The registers of the caller of `context_switch`, as it will see them again. -/
def suspensionOf (m : Machine) : Suspension where
  rsp := m.regs .rsp + 8
  context :=
    { r15 := m.regs .r15
      r14 := m.regs .r14
      r13 := m.regs .r13
      r12 := m.regs .r12
      rbx := m.regs .rbx
      rbp := m.regs .rbp
      retAddr := load m.mem m.sp }

/-- The registers with which a new thread starts. -/
def suspensionOfNew (image : Image) (stack : Word) : Suspension where
  rsp := BitVec.ofNat 64 (initialFrame stack + sizeofContext)
  context := initialContext image

/-- What happens: other code runs, a thread is created, or one of the two
routines switches to the next thread. -/
inductive Event where
  | user (after : Machine)
  | create (thread stack function argument : Word)
  | switch (next : Word)
  | exit (next : Word) (cleanup : Word → Machine → Machine)

/-- The two blocks that malloc returned are not in use. -/
structure FreshBlocks (image : Image) (x : World) (thread stack : Word) : Prop where
  notLive : ¬x.Live thread
  thread_bound : thread.toNat + 48 ≤ 2 ^ 64
  stack_bound : stack.toNat + stackSize < 2 ^ 64
  own : Region.Apart ⟨thread.toNat, thread.toNat + 48⟩ ⟨stack.toNat, stack.toNat + stackSize⟩
  var_thread : Region.Apart ⟨thread.toNat, thread.toNat + 48⟩ (runningVar image)
  var_stack : Region.Apart ⟨stack.toNat, stack.toNat + stackSize⟩ (runningVar image)
  threads : ∀ t, x.Live t → Region.Apart ⟨thread.toNat, thread.toNat + 48⟩ (contextField t) ∧
    Region.Apart ⟨thread.toNat, thread.toNat + 48⟩ (x.stackOf t) ∧
    Region.Apart ⟨stack.toNat, stack.toNat + stackSize⟩ (contextField t) ∧
    Region.Apart ⟨stack.toNat, stack.toNat + stackSize⟩ (x.stackOf t)

/-- A call of `context_switch` by the current thread, with its return address
on top of its own stack and room below for the frame and one more call. -/
structure SwitchCall (x : World) (next : Word) : Prop where
  rdi : x.machine.regs .rdi = x.current
  rsi : x.machine.regs .rsi = next
  suspended : x.saved next ≠ none
  room : (x.stackOf x.current).lo + 56 ≤ x.machine.sp
  top : x.machine.sp + 8 ≤ (x.stackOf x.current).hi

/-- A call of `internal_exit` by the current thread. -/
structure ExitCall (image : Image) (x : World) (next : Word)
    (cleanup : Word → Machine → Machine) : Prop where
  rdi : x.machine.regs .rdi = x.current
  rsi : x.machine.regs .rsi = next
  suspended : x.saved next ≠ none
  contract : CleanupContract image x next cleanup

/-- One step. -/
def step (image : Image) (x : World) : Event → World → Prop
  | .user after, y =>
    (∀ a, after.mem a ≠ x.machine.mem a → ¬x.Protected a) ∧ y = { x with machine := after }
  | .create thread stack function argument, y =>
    FreshBlocks image x thread stack ∧
    y = { x with
      machine := { x.machine with
        mem := utCreate image thread stack function argument x.machine.mem }
      stackOf := Function.update x.stackOf thread ⟨stack.toNat, stack.toNat + stackSize⟩
      saved := Function.update x.saved thread (some (suspensionOfNew image stack)) }
  | .switch next, y =>
    SwitchCall x next ∧
    y = { x with
      machine := run (fun _ m => m) (contextSwitch image) x.machine
      current := next
      saved := Function.update
        (Function.update x.saved x.current (some (suspensionOf x.machine))) next none }
  | .exit next cleanup, y =>
    ExitCall image x next cleanup ∧
    y = { x with
      machine := run cleanup (internalExit image) x.machine
      current := next
      saved := Function.update x.saved next none }

/-- The main thread runs on its own stack, below its descriptor, and no other
thread exists. -/
structure Start (image : Image) (x : World) : Prop where
  alone : ∀ t, x.saved t = none
  bound : (x.stackOf x.current).hi < 2 ^ 64
  field : Region.Apart (contextField x.current) (x.stackOf x.current)
  var_field : Region.Apart (contextField x.current) (runningVar image)
  var_stack : Region.Apart (x.stackOf x.current) (runningVar image)

/-- All runs of the two routines. -/
def switching (image : Image) : System World Event where
  init := Start image
  step := step image

/-- A thread has the processor again, with the registers of its suspension. -/
structure Resumed (m : Machine) (s : Suspension) : Prop where
  rsp : m.regs .rsp = s.rsp
  r15 : m.regs .r15 = s.context.r15
  r14 : m.regs .r14 = s.context.r14
  r13 : m.regs .r13 = s.context.r13
  r12 : m.regs .r12 = s.context.r12
  rbx : m.regs .rbx = s.context.rbx
  rbp : m.regs .rbp = s.context.rbp
  rip : m.rip = s.context.retAddr

/-- A suspended thread as the memory has it. -/
structure Stored (mem : Memory) (stack : Region) (t : Word) (s : Suspension) : Prop where
  /-- The descriptor points to the frame. -/
  pointer : (load mem t.toNat).toNat + sizeofContext = s.rsp.toNat
  /-- The frame holds the registers. -/
  frame : WordsAt mem (load mem t.toNat).toNat s.context.words
  /-- The frame is on the thread's own stack, with room below for one call. -/
  room : stack.lo + sizeofContext + 8 ≤ s.rsp.toNat
  top : s.rsp.toNat ≤ stack.hi

/-- Threads do not share memory that matters to the switch. -/
structure Separate (image : Image) (x : World) : Prop where
  bound : ∀ t, x.Live t → (x.stackOf t).hi < 2 ^ 64
  stack_stack : ∀ t u, x.Live t → x.Live u → t ≠ u → Region.Apart (x.stackOf t) (x.stackOf u)
  field_field : ∀ t u, x.Live t → x.Live u → t ≠ u → Region.Apart (contextField t) (contextField u)
  field_stack : ∀ t u, x.Live t → x.Live u → Region.Apart (contextField t) (x.stackOf u)
  var_field : ∀ t, x.Live t → Region.Apart (contextField t) (runningVar image)
  var_stack : ∀ t, x.Live t → Region.Apart (x.stackOf t) (runningVar image)

/-- The invariant of the switch. -/
structure Sound (image : Image) (x : World) : Prop where
  separate : Separate image x
  /-- The thread that runs is not suspended. -/
  running : x.saved x.current = none
  /-- Every suspended thread has its frame in memory. -/
  stored : ∀ t s, x.saved t = some s → Stored x.machine.mem (x.stackOf t) t s

/-- An address of one range is none of a range apart from it. -/
theorem Region.Apart.not_contains {r s : Region} (h : r.Apart s) {a : ℕ} (ha : r.Contains a) :
    ¬s.Contains a := by
  unfold Region.Apart at h
  unfold Region.Contains at ha ⊢
  omega

theorem Region.Apart.symm {r s : Region} (h : r.Apart s) : s.Apart r := Or.symm h

/-- A saved frame is part of its stack. -/
theorem Stored.frame_in_stack {mem : Memory} {stack : Region} {t : Word} {s : Suspension}
    (h : Stored mem stack t s) {a : ℕ} (ha : s.frame.Contains a) : stack.Contains a := by
  have hroom := h.room
  have htop := h.top
  unfold Region.Contains Suspension.frame at ha
  unfold Region.Contains
  dsimp only at ha
  omega

/-- A suspended thread only depends on its frame and on the pointer to it. -/
theorem Stored.congr {mem mem' : Memory} {stack : Region} {t : Word} {s : Suspension}
    (h : Stored mem stack t s) (hfield : ∀ a, (contextField t).Contains a → mem' a = mem a)
    (hframe : ∀ a, s.frame.Contains a → mem' a = mem a) : Stored mem' stack t s := by
  have hload : load mem' t.toNat = load mem t.toNat :=
    load_congr fun a hlo hhi => hfield a ⟨hlo, hhi⟩
  have hpointer := h.pointer
  refine ⟨hload ▸ h.pointer, ?_, h.room, h.top⟩
  rw [hload]
  refine h.frame.congr _ fun a hlo hhi => hframe a ?_
  have hlength : s.context.words.length = 7 := rfl
  rw [hlength] at hhi
  unfold Region.Contains Suspension.frame
  unfold sizeofContext at hpointer ⊢
  dsimp only
  omega

/-- The pops and the return at the end of both routines. -/
theorem restore_spec (callee : Word → Machine → Machine) {m : Machine} {s : Suspension}
    (hsp : m.sp + sizeofContext = s.rsp.toNat) (hwords : WordsAt m.mem m.sp s.context.words) :
    Resumed (run callee (popped.map .pop ++ [.ret]) m) s ∧
      (run callee (popped.map .pop ++ [.ret]) m).mem = m.mem := by
  have hbound := s.rsp.isLt
  unfold sizeofContext at hsp
  have hlength : popped.length = 6 := rfl
  obtain ⟨hsp', hregs, -, hmem, hret⟩ := run_pops callee popped
    [s.context.r15, s.context.r14, s.context.r13, s.context.r12, s.context.rbx, s.context.rbp]
    [s.context.retAddr] (by decide) (by decide) rfl
    (by rw [hlength]; omega) hwords
  rw [hlength] at hsp'
  obtain ⟨hrip, hsp'', hkept, hmem'⟩ := exec_ret callee (by omega) hret
  simp only [popped, List.map_cons, List.map_nil, List.cons.injEq, and_true] at hregs
  obtain ⟨h15, h14, h13, h12, hbx, hbp⟩ := hregs
  rw [run_append]
  refine ⟨⟨BitVec.eq_of_toNat_eq ?_, (hkept _ (by decide)).trans h15,
    (hkept _ (by decide)).trans h14, (hkept _ (by decide)).trans h13,
    (hkept _ (by decide)).trans h12, (hkept _ (by decide)).trans hbx,
    (hkept _ (by decide)).trans hbp, hrip⟩, hmem'.trans hmem⟩
  have hlast : ((exec callee .ret (run callee (popped.map .pop) m)).regs .rsp).toNat =
      (run callee (popped.map .pop) m).sp + 8 := hsp''
  exact hlast.trans (by omega)

/-- `context_switch` saves, changes the stack and restores. -/
theorem contextSwitch_eq (image : Image) : contextSwitch image =
    (pushed.map Instr.push ++ [Instr.movToMem .rsp .rdi, Instr.movToVar .rsi image.runningThread]) ++
      (Instr.movFromMem .rsi .rsp :: (popped.map Instr.pop ++ [Instr.ret])) := rfl

/-- `internal_exit` changes the stack, calls `cleanup_thread` and restores. -/
theorem internalExit_eq (image : Image) : internalExit image =
    [Instr.movToVar .rsi image.runningThread, Instr.movFromMem .rsi .rsp] ++
      (Instr.call image.cleanupThread image.afterCleanup ::
        (popped.map Instr.pop ++ [Instr.ret])) := rfl

/-- The pushes and stores at the start of `context_switch`. -/
theorem save_spec (image : Image) (callee : Word → Machine → Machine) {m : Machine}
    {stack : Region} {t : Word} (hrdi : m.regs .rdi = t)
    (hroom : stack.lo + sizeofContext ≤ m.sp) (htop : m.sp + 8 ≤ stack.hi)
    (hbound : stack.hi < 2 ^ 64) (hfield : (contextField t).Apart stack)
    (hvarField : (contextField t).Apart (runningVar image))
    (hvarStack : stack.Apart (runningVar image)) :
    let m' := run callee
      (pushed.map .push ++ [.movToMem .rsp .rdi, .movToVar .rsi image.runningThread]) m
    Stored m'.mem stack t (suspensionOf m) ∧
      load m'.mem image.runningThread = m.regs .rsi ∧ m'.regs .rsi = m.regs .rsi ∧
      ∀ a, ¬stack.Contains a → ¬(contextField t).Contains a → ¬(runningVar image).Contains a →
        m'.mem a = m.mem a := by
  unfold Region.Apart contextField runningVar at *
  dsimp only at *
  unfold sizeofContext at hroom
  have hlength : pushed.length = 6 := rfl
  have htopWord : WordsAt m.mem m.sp [load m.mem m.sp] := ⟨rfl, trivial⟩
  obtain ⟨hsp, hregs, hwords, houtside⟩ := run_pushes callee pushed (by decide)
    (by rw [hlength]; omega) htopWord
  rw [hlength] at hsp houtside
  rw [run_append]
  generalize run callee (pushed.map .push) m = m₁ at hsp hregs hwords houtside ⊢
  have hsp₁ : (m₁.regs .rsp).toNat = m.sp - 8 * 6 := hsp
  have hrdi₁ : (m₁.regs .rdi).toNat = t.toNat := by rw [hregs _ (by decide), hrdi]
  have hregs₂ : (run callee [.movToMem .rsp .rdi, .movToVar .rsi image.runningThread] m₁).regs =
      m₁.regs := rfl
  have hmem : (run callee [.movToMem .rsp .rdi, .movToVar .rsi image.runningThread] m₁).mem =
      store (store m₁.mem t.toNat (m₁.regs .rsp)) image.runningThread (m₁.regs .rsi) := by
    simp [exec, hrdi₁]
  generalize run callee [.movToMem .rsp .rdi, .movToVar .rsi image.runningThread] m₁ = m₂
    at hregs₂ hmem ⊢
  have hpointer : load m₂.mem t.toNat = m₁.regs .rsp := by
    rw [hmem, load_store_disjoint (by omega), load_store_same]
  have hsuspended : (suspensionOf m).rsp.toNat = m.sp + 8 := by
    unfold Machine.sp at htop ⊢
    unfold suspensionOf
    bv_omega
  refine ⟨⟨?_, ?_, ?_, ?_⟩, ?_, ?_, fun a hstack hcontext hvar => ?_⟩
  · rw [hpointer, hsuspended, hsp₁, sizeofContext]
    omega
  · rw [hpointer, hmem]
    refine WordsAt.congr _ hwords fun a hlo hhi => ?_
    have hseven : (suspensionOf m).context.words.length = 7 := rfl
    rw [hseven, hsp₁] at hhi
    rw [hsp₁] at hlo
    rw [store_outside (by omega), store_outside (by omega)]
  · rw [hsuspended, sizeofContext]
    omega
  · rw [hsuspended]
    exact htop
  · rw [hmem, load_store_same]
    exact hregs .rsi (by decide)
  · rw [hregs₂]
    exact hregs .rsi (by decide)
  · unfold Region.Contains at hstack hcontext hvar
    dsimp only at hstack hcontext hvar
    rw [hmem, store_outside (by omega), store_outside (by omega), houtside a (by omega)]

/-- A suspended thread is live. -/
theorem live_of_saved {x : World} {t : Word} {s : Suspension} (hs : x.saved t = some s) :
    x.Live t := .inr (by simp [hs])

section Steps

variable {image : Image} {x : World} {next : Word}

/-- The frame and the pointer of a suspended thread are apart from what another
live thread writes when it is suspended. -/
theorem Sound.stored_other (h : Sound image x) {c t : Word} {s : Suspension} (hc : x.Live c)
    (ht : x.saved t = some s) (hne : t ≠ c) {mem : Memory}
    (hmem : ∀ a, ¬(x.stackOf c).Contains a → ¬(contextField c).Contains a →
      ¬(runningVar image).Contains a → mem a = x.machine.mem a) :
    Stored mem (x.stackOf t) t s := by
  have hlive := live_of_saved ht
  have hstored := h.stored t s ht
  refine hstored.congr (fun a ha => ?_) fun a ha => ?_
  · exact hmem a ((h.separate.field_stack t c hlive hc).not_contains ha)
      ((h.separate.field_field t c hlive hc hne).not_contains ha)
      ((h.separate.var_field t hlive).not_contains ha)
  · have hin := hstored.frame_in_stack ha
    exact hmem a ((h.separate.stack_stack t c hlive hc hne).not_contains hin)
      ((h.separate.field_stack c t hc hlive).symm.not_contains hin)
      ((h.separate.var_stack t hlive).not_contains hin)

/-- What `context_switch` does to the machine. -/
theorem switch_spec (h : Sound image x) (hcall : SwitchCall x next) {s : Suspension}
    (hs : x.saved next = some s) :
    let m' := run (fun _ m => m) (contextSwitch image) x.machine
    Resumed m' s ∧ load m'.mem image.runningThread = next ∧
      Stored m'.mem (x.stackOf x.current) x.current (suspensionOf x.machine) ∧
      ∀ a, ¬(x.stackOf x.current).Contains a → ¬(contextField x.current).Contains a →
        ¬(runningVar image).Contains a → m'.mem a = x.machine.mem a := by
  have hlive : x.Live x.current := .inl rfl
  have hne : next ≠ x.current := by
    rintro rfl
    exact hcall.suspended h.running
  have hroom : (x.stackOf x.current).lo + sizeofContext ≤ x.machine.sp := hcall.room
  obtain ⟨hsaved, hvar, hrsi, houtside⟩ := save_spec image (fun _ m => m) hcall.rdi hroom hcall.top
    (h.separate.bound _ hlive) (h.separate.field_stack _ _ hlive hlive)
    (h.separate.var_field _ hlive) (h.separate.var_stack _ hlive)
  have hstored := h.stored_other hlive hs hne houtside
  rw [contextSwitch_eq, run_append, run_cons]
  generalize run (fun _ m => m)
    (pushed.map .push ++ [.movToMem .rsp .rdi, .movToVar .rsi image.runningThread]) x.machine = m₁
    at hsaved hvar hrsi houtside hstored ⊢
  have hsp : (exec (fun _ m => m) (.movFromMem .rsi .rsp) m₁).sp =
      (load m₁.mem next.toNat).toNat := by
    simp [Machine.sp, exec, Machine.setReg, hrsi, hcall.rsi]
  have hmem : (exec (fun _ m => m) (.movFromMem .rsi .rsp) m₁).mem = m₁.mem := rfl
  generalize exec (fun _ m => m) (.movFromMem .rsi .rsp) m₁ = m₂ at hsp hmem ⊢
  obtain ⟨hresumed, hkept⟩ := restore_spec (fun _ m => m) (m := m₂) (s := s)
    (by rw [hsp]; exact hstored.pointer) (by rw [hsp, hmem]; exact hstored.frame)
  dsimp only
  rw [hkept, hmem]
  exact ⟨hresumed, hvar.trans hcall.rsi, hsaved, houtside⟩

/-- Protected addresses are not in the static variable, nor below the frame of
the next thread on its stack. -/
theorem protected_apart (h : Sound image x) {s : Suspension} (hs : x.saved next = some s) {a : ℕ}
    (ha : x.Protected a) :
    ¬(runningVar image).Contains a ∧ ¬((x.stackOf next).lo ≤ a ∧ a < s.frame.lo) := by
  obtain ⟨t, s', ht, hin⟩ := ha
  have hlive := live_of_saved ht
  have hnext := live_of_saved hs
  have htop := (h.stored next s hs).top
  have hbelow : (x.stackOf next).lo ≤ a ∧ a < s.frame.lo → (x.stackOf next).Contains a := by
    unfold Suspension.frame Region.Contains
    dsimp only
    omega
  rcases hin with hfield | hframe
  · exact ⟨(h.separate.var_field t hlive).not_contains hfield,
      fun hb => (h.separate.field_stack t next hlive hnext).not_contains hfield (hbelow hb)⟩
  · have hstack := (h.stored t s' ht).frame_in_stack hframe
    refine ⟨(h.separate.var_stack t hlive).not_contains hstack, fun hb => ?_⟩
    by_cases hne : t = next
    · subst hne
      rw [ht] at hs
      cases hs
      unfold Region.Contains at hframe
      omega
    · exact (h.separate.stack_stack t next hlive hnext hne).not_contains hstack (hbelow hb)

/-- What `cleanup_thread` finds when `internal_exit` calls it. -/
theorem cleanupEntry_spec (h : Sound image x) (hrsi : x.machine.regs .rsi = next)
    {s : Suspension} (hs : x.saved next = some s) :
    (cleanupEntry image x.machine).sp + 8 = (load x.machine.mem next.toNat).toNat ∧
      load (cleanupEntry image x.machine).mem image.runningThread = next ∧
      ∀ a, x.Protected a → (cleanupEntry image x.machine).mem a = x.machine.mem a := by
  have hlive := live_of_saved hs
  obtain ⟨hpointer, -, hroom, htop⟩ := h.stored next s hs
  have hvarField := h.separate.var_field next hlive
  have hvarStack := h.separate.var_stack next hlive
  have hapart : ∀ a, x.Protected a → _ := fun a ha => protected_apart h hs ha
  simp only [Region.Apart, contextField, runningVar] at hvarField hvarStack
  simp only [Region.Contains, Suspension.frame, runningVar] at hapart
  unfold sizeofContext at hpointer hroom hapart
  unfold cleanupEntry
  have hload : load (store x.machine.mem image.runningThread next) next.toNat =
      load x.machine.mem next.toNat := load_store_disjoint (by omega)
  have hsp : (run (fun _ m => m) [.movToVar .rsi image.runningThread, .movFromMem .rsi .rsp]
      x.machine).sp = (load x.machine.mem next.toNat).toNat := by
    simp [Machine.sp, exec, Machine.setReg, hrsi, hload]
  have hmem : (run (fun _ m => m) [.movToVar .rsi image.runningThread, .movFromMem .rsi .rsp]
      x.machine).mem = store x.machine.mem image.runningThread next := by
    simp [exec, Machine.setReg, hrsi]
  generalize run (fun _ m => m) [.movToVar .rsi image.runningThread, .movFromMem .rsi .rsp]
    x.machine = m at hsp hmem ⊢
  have hpush := pushWord_sp (m := m) (by omega) image.afterCleanup
  have houtside : ∀ a, a < m.sp - 8 ∨ m.sp ≤ a →
      (m.pushWord image.afterCleanup).mem a = m.mem a := fun a ha =>
    pushWord_outside (by omega) image.afterCleanup ha
  refine ⟨by omega, ?_, fun a ha => ?_⟩
  · have hkept : load (m.pushWord image.afterCleanup).mem image.runningThread =
        load m.mem image.runningThread := load_congr fun a _ _ => houtside a (by omega)
    rw [hkept, hmem, load_store_same]
  · have hnot := hapart a ha
    rw [houtside a (by omega), hmem, store_outside (by omega)]

/-- Everything that is protected survives the call of `cleanup_thread`. -/
theorem cleanup_protected (h : Sound image x) {cleanup : Word → Machine → Machine}
    (hcall : ExitCall image x next cleanup) {a : ℕ} (ha : x.Protected a) :
    (cleanup image.cleanupThread (cleanupEntry image x.machine)).mem a = x.machine.mem a := by
  obtain ⟨s, hs⟩ := Option.ne_none_iff_exists'.mp hcall.suspended
  obtain ⟨hsp, -, hkept⟩ := cleanupEntry_spec h hcall.rsi hs
  have hpointer := (h.stored next s hs).pointer
  have hbelow := (protected_apart h hs ha).2
  rw [← hkept a ha]
  by_contra hchanged
  rcases hcall.contract.writes a hchanged with hin | ⟨-, hout⟩
  · refine hbelow ⟨hin.1, ?_⟩
    unfold Suspension.frame
    dsimp only
    omega
  · obtain ⟨t, s', ht, hin⟩ := ha
    obtain ⟨hstack, hfield⟩ := hout t (by simp [ht])
    rcases hin with hin | hin
    · exact hfield hin
    · exact hstack ((h.stored t s' ht).frame_in_stack hin)

/-- What `internal_exit` does to the machine. -/
theorem exit_spec (h : Sound image x) {cleanup : Word → Machine → Machine}
    (hcall : ExitCall image x next cleanup) {s : Suspension} (hs : x.saved next = some s) :
    let m' := run cleanup (internalExit image) x.machine
    Resumed m' s ∧ load m'.mem image.runningThread = next ∧
      ∀ a, x.Protected a → m'.mem a = x.machine.mem a := by
  have hrun : run cleanup (internalExit image) x.machine =
      run cleanup (popped.map .pop ++ [.ret])
        (cleanup image.cleanupThread (cleanupEntry image x.machine)) := by
    rw [internalExit_eq, run_append, run_cons]
    rfl
  have hstored := h.stored next s hs
  have hprotected : ∀ a, x.Protected a →
      (cleanup image.cleanupThread (cleanupEntry image x.machine)).mem a = x.machine.mem a :=
    fun a ha => cleanup_protected h hcall ha
  obtain ⟨hsp, hvar, -⟩ := cleanupEntry_spec h hcall.rsi hs
  have hrsp := hcall.contract.rsp
  have hwrites := hcall.contract.writes
  have hvarStack := h.separate.var_stack next (live_of_saved hs)
  rw [hrun]
  generalize cleanupEntry image x.machine = entry at hsp hvar hrsp hwrites hprotected ⊢
  have hframe : Stored (cleanup image.cleanupThread entry).mem (x.stackOf next) next s :=
    hstored.congr (fun a ha => hprotected a ⟨next, s, hs, .inl ha⟩)
      fun a ha => hprotected a ⟨next, s, hs, .inr ha⟩
  have hback : (cleanup image.cleanupThread entry).sp =
      (load (cleanup image.cleanupThread entry).mem next.toNat).toNat := by
    have hpointer : load (cleanup image.cleanupThread entry).mem next.toNat =
        load x.machine.mem next.toNat :=
      load_congr fun a hlo hhi => hprotected a ⟨next, s, hs, .inl ⟨hlo, hhi⟩⟩
    have hbound := (load x.machine.mem next.toNat).isLt
    rw [hpointer, Machine.sp, hrsp]
    unfold Machine.sp at hsp
    bv_omega
  have hrunning : load (cleanup image.cleanupThread entry).mem image.runningThread = next := by
    rw [← hvar]
    refine load_congr fun a hlo hhi => ?_
    have hin : (runningVar image).Contains a := ⟨hlo, hhi⟩
    by_contra hchanged
    rcases hwrites a hchanged with hb | ⟨hb, -⟩
    · have htop := hstored.top
      have hpointer := hstored.pointer
      exact hvarStack.symm.not_contains hin ⟨hb.1, by omega⟩
    · exact hb hin
  generalize cleanup image.cleanupThread entry = m at hframe hback hrunning hprotected ⊢
  obtain ⟨hresumed, hkept⟩ := restore_spec cleanup (m := m) (s := s)
    (by rw [hback]; exact hframe.pointer) (by rw [hback]; exact hframe.frame)
  dsimp only
  rw [hkept]
  exact ⟨hresumed, hrunning, hprotected⟩

/-- Fewer live threads on the same stacks are still apart. -/
theorem Separate.mono {y : World} (h : Separate image x) (hstack : y.stackOf = x.stackOf)
    (hlive : ∀ t, y.Live t → x.Live t) : Separate image y := by
  refine ⟨fun t ht => ?_, fun t u ht hu hne => ?_,
    fun t u ht hu hne => h.field_field t u (hlive t ht) (hlive u hu) hne, fun t u ht hu => ?_,
    fun t ht => h.var_field t (hlive t ht), fun t ht => ?_⟩
  · rw [hstack]
    exact h.bound t (hlive t ht)
  · rw [hstack]
    exact h.stack_stack t u (hlive t ht) (hlive u hu) hne
  · rw [hstack]
    exact h.field_stack t u (hlive t ht) (hlive u hu)
  · rw [hstack]
    exact h.var_stack t (hlive t ht)

/-- A lone thread is in order. -/
theorem sound_start (h : Start image x) : Sound image x := by
  have hlive : ∀ t, x.Live t → t = x.current := by
    intro t ht
    exact ht.resolve_right fun hs => hs (h.alone t)
  refine ⟨⟨fun t ht => ?_, fun t u ht hu hne => ?_, fun t u ht hu hne => ?_, fun t u ht hu => ?_,
    fun t ht => ?_, fun t ht => ?_⟩, h.alone _, fun t s hs => ?_⟩
  · rw [hlive t ht]
    exact h.bound
  · exact absurd ((hlive t ht).trans (hlive u hu).symm) hne
  · exact absurd ((hlive t ht).trans (hlive u hu).symm) hne
  · rw [hlive t ht, hlive u hu]
    exact h.field
  · rw [hlive t ht]
    exact h.var_field
  · rw [hlive t ht]
    exact h.var_stack
  · rw [h.alone t] at hs
    cases hs

/-- Code that leaves the frames alone keeps the order. -/
theorem sound_user (h : Sound image x) {after : Machine}
    (hwrites : ∀ a, after.mem a ≠ x.machine.mem a → ¬x.Protected a) :
    Sound image { x with machine := after } := by
  refine ⟨h.separate.mono rfl fun t ht => ht, h.running, fun t s hs => ?_⟩
  have hkept : ∀ a, x.Protected a → after.mem a = x.machine.mem a := fun a ha => by
    by_contra hchanged
    exact hwrites a hchanged ha
  exact (h.stored t s hs).congr (fun a ha => hkept a ⟨t, s, hs, .inl ha⟩)
    fun a ha => hkept a ⟨t, s, hs, .inr ha⟩

/-- `context_switch` keeps the order. -/
theorem sound_switch (h : Sound image x) (hcall : SwitchCall x next) :
    Sound image { x with
      machine := run (fun _ m => m) (contextSwitch image) x.machine
      current := next
      saved := Function.update
        (Function.update x.saved x.current (some (suspensionOf x.machine))) next none } := by
  obtain ⟨s, hs⟩ := Option.ne_none_iff_exists'.mp hcall.suspended
  obtain ⟨-, -, hstored, houtside⟩ := switch_spec h hcall hs
  have hcurrent : x.Live x.current := .inl rfl
  refine ⟨h.separate.mono rfl fun t ht => ?_, Function.update_self _ _ _, fun t s' ht => ?_⟩
  · by_cases htc : t = x.current
    · exact .inl htc
    · by_cases htn : t = next
      · exact .inr (by rw [htn, hs]; simp)
      · exact .inr (by simpa [World.Live, htn, htc] using ht)
  · dsimp only at ht
    by_cases htn : t = next
    · subst htn
      rw [Function.update_self] at ht
      cases ht
    · rw [Function.update_of_ne htn] at ht
      by_cases htc : t = x.current
      · subst htc
        rw [Function.update_self] at ht
        cases ht
        exact hstored
      · rw [Function.update_of_ne htc] at ht
        exact h.stored_other hcurrent ht htc houtside

/-- `internal_exit` keeps the order. -/
theorem sound_exit (h : Sound image x) {cleanup : Word → Machine → Machine}
    (hcall : ExitCall image x next cleanup) :
    Sound image { x with
      machine := run cleanup (internalExit image) x.machine
      current := next
      saved := Function.update x.saved next none } := by
  obtain ⟨s, hs⟩ := Option.ne_none_iff_exists'.mp hcall.suspended
  obtain ⟨-, -, hkept⟩ := exit_spec h hcall hs
  refine ⟨h.separate.mono rfl fun t ht => ?_, Function.update_self _ _ _, fun t s' ht => ?_⟩
  · by_cases htn : t = next
    · exact .inr (by rw [htn, hs]; simp)
    · exact .inr (by simpa [World.Live, htn] using ht)
  · dsimp only at ht
    by_cases htn : t = next
    · subst htn
      rw [Function.update_self] at ht
      cases ht
    · rw [Function.update_of_ne htn] at ht
      exact (h.stored t s' ht).congr (fun a ha => hkept a ⟨t, s', ht, .inl ha⟩)
        fun a ha => hkept a ⟨t, s', ht, .inr ha⟩

end Steps

/-- What `ut_create` writes: the new frame, the pointer to it, and nothing
outside of the two new blocks. -/
theorem utCreate_spec (image : Image) {thread stack : Word} (function argument : Word) (m : Memory)
    (hstack : stack.toNat + stackSize < 2 ^ 64)
    (hapart : Region.Apart ⟨thread.toNat, thread.toNat + 48⟩
      ⟨stack.toNat, stack.toNat + stackSize⟩) :
    Stored (utCreate image thread stack function argument m)
      ⟨stack.toNat, stack.toNat + stackSize⟩ thread (suspensionOfNew image stack) ∧
    ∀ a, ¬Region.Contains ⟨thread.toNat, thread.toNat + 48⟩ a →
      ¬Region.Contains ⟨stack.toNat, stack.toNat + stackSize⟩ a →
      utCreate image thread stack function argument m a = m a := by
  simp only [Region.Apart, stackSize] at hapart hstack
  have hframe : initialFrame stack = stack.toNat + 32704 := by
    simp only [initialFrame, stackSize, sizeofContext]
    omega
  have hlength : (initialContext image).words.length = 7 := rfl
  have hpointer : (BitVec.ofNat 64 (stack.toNat + 32704)).toNat = stack.toNat + 32704 := by
    rw [BitVec.toNat_ofNat, Nat.mod_eq_of_lt (by omega)]
  unfold utCreate
  dsimp only
  rw [hframe]
  -- The memory before the context is laid out differs only inside the two blocks.
  generalize hbase : store (store (fun x => if stack.toNat ≤ x ∧ x < stack.toNat + stackSize then 0
    else store m (thread.toNat + 40) stack x) (thread.toNat + 24) function)
    (thread.toNat + 32) argument = base
  obtain ⟨hwords, houtside⟩ := storeWords_spec (initialContext image).words
    (store base thread.toNat (BitVec.ofNat 64 (stack.toNat + 32704))) (stack.toNat + 32704)
  rw [hlength] at houtside
  have hload : load (storeWords (store base thread.toNat (BitVec.ofNat 64 (stack.toNat + 32704)))
      (stack.toNat + 32704) (initialContext image).words) thread.toNat =
      BitVec.ofNat 64 (stack.toNat + 32704) := by
    rw [load_congr fun a _ _ => houtside a (by omega), load_store_same]
  have hrsp : (suspensionOfNew image stack).rsp.toNat = stack.toNat + 32760 := by
    simp only [suspensionOfNew, hframe, sizeofContext, BitVec.toNat_ofNat]
    omega
  refine ⟨⟨?_, ?_, ?_, ?_⟩, fun a hthread hblock => ?_⟩
  · rw [hload, hpointer, hrsp, sizeofContext]
  · rw [hload, hpointer]
    exact hwords
  · rw [hrsp]
    simp only [sizeofContext]
    omega
  · rw [hrsp]
    simp only [stackSize]
    omega
  · simp only [Region.Contains, stackSize] at hthread hblock
    rw [houtside a (by omega), store_outside (by omega), ← hbase, store_outside (by omega),
      store_outside (by omega), if_neg (by rw [stackSize]; omega), store_outside (by omega)]

/-- `ut_create` keeps the order. -/
theorem sound_create {image : Image} {x : World} {thread stack : Word} (h : Sound image x)
    (hfresh : FreshBlocks image x thread stack) (function argument : Word) :
    Sound image { x with
      machine := { x.machine with
        mem := utCreate image thread stack function argument x.machine.mem }
      stackOf := Function.update x.stackOf thread ⟨stack.toNat, stack.toNat + stackSize⟩
      saved := Function.update x.saved thread (some (suspensionOfNew image stack)) } := by
  obtain ⟨hstored, houtside⟩ := utCreate_spec image function argument x.machine.mem
    hfresh.stack_bound hfresh.own
  have hcurrent : x.current ≠ thread := fun hc => hfresh.notLive (.inl hc.symm)
  -- Only the first words of the new descriptor matter to the switch.
  have hfield : ∀ {r : Region}, Region.Apart ⟨thread.toNat, thread.toNat + 48⟩ r →
      (contextField thread).Apart r := by
    intro r hr
    simp only [Region.Apart, contextField] at hr ⊢
    omega
  have hold : ∀ t, t ≠ thread → World.Live { x with
      saved := Function.update x.saved thread (some (suspensionOfNew image stack)) } t →
      x.Live t := by
    intro t hne ht
    simpa [World.Live, hne] using ht
  refine ⟨⟨fun t ht => ?_, fun t u ht hu hne => ?_, fun t u ht hu hne => ?_, fun t u ht hu => ?_,
    fun t ht => ?_, fun t ht => ?_⟩, ?_, fun t s hs => ?_⟩
  · by_cases htt : t = thread
    · simp only [htt, Function.update_self]
      exact hfresh.stack_bound
    · simp only [Function.update_of_ne htt]
      exact h.separate.bound t (hold t htt ht)
  · by_cases htt : t = thread
    · have hut : u ≠ thread := fun hu => hne (htt.trans hu.symm)
      simp only [htt, Function.update_self, Function.update_of_ne hut]
      exact (hfresh.threads u (hold u hut hu)).2.2.2
    · by_cases hut : u = thread
      · simp only [hut, Function.update_self, Function.update_of_ne htt]
        exact (hfresh.threads t (hold t htt ht)).2.2.2.symm
      · simp only [Function.update_of_ne htt, Function.update_of_ne hut]
        exact h.separate.stack_stack t u (hold t htt ht) (hold u hut hu) hne
  · by_cases htt : t = thread
    · have hut : u ≠ thread := fun hu => hne (htt.trans hu.symm)
      rw [htt]
      exact hfield (hfresh.threads u (hold u hut hu)).1
    · by_cases hut : u = thread
      · rw [hut]
        exact (hfield (hfresh.threads t (hold t htt ht)).1).symm
      · exact h.separate.field_field t u (hold t htt ht) (hold u hut hu) hne
  · by_cases htt : t = thread
    · rw [htt]
      by_cases hut : u = thread
      · simp only [hut, Function.update_self]
        exact hfield hfresh.own
      · simp only [Function.update_of_ne hut]
        exact hfield (hfresh.threads u (hold u hut hu)).2.1
    · by_cases hut : u = thread
      · simp only [hut, Function.update_self]
        exact (hfresh.threads t (hold t htt ht)).2.2.1.symm
      · simp only [Function.update_of_ne hut]
        exact h.separate.field_stack t u (hold t htt ht) (hold u hut hu)
  · by_cases htt : t = thread
    · rw [htt]
      exact hfield hfresh.var_thread
    · exact h.separate.var_field t (hold t htt ht)
  · by_cases htt : t = thread
    · simp only [htt, Function.update_self]
      exact hfresh.var_stack
    · simp only [Function.update_of_ne htt]
      exact h.separate.var_stack t (hold t htt ht)
  · simp only [Function.update_of_ne hcurrent]
    exact h.running
  · dsimp only at hs ⊢
    by_cases htt : t = thread
    · subst htt
      rw [Function.update_self] at hs ⊢
      rw [← Option.some.inj hs]
      exact hstored
    · rw [Function.update_of_ne htt] at hs ⊢
      have hlive := live_of_saved hs
      obtain ⟨hfieldThread, hstackThread, hfieldStack, hstackStack⟩ := hfresh.threads t hlive
      have hsaved := h.stored t s hs
      refine hsaved.congr (fun a ha => ?_) fun a ha => ?_
      · exact houtside a (hfieldThread.symm.not_contains ha) (hfieldStack.symm.not_contains ha)
      · have hin := hsaved.frame_in_stack ha
        exact houtside a (hstackThread.symm.not_contains hin) (hstackStack.symm.not_contains hin)

/-- Along every run the switch is in order. -/
theorem sound_reachable {image : Image} {x : World} (h : (switching image).Reachable x) :
    Sound image x := by
  refine System.Reachable.invariant (I := Sound image) (fun x hx => sound_start hx) ?_ h
  rintro x e y - hI hstep
  cases e with
  | user after =>
    obtain ⟨hwrites, rfl⟩ := hstep
    exact sound_user hI hwrites
  | create thread stack function argument =>
    obtain ⟨hfresh, rfl⟩ := hstep
    exact sound_create hI hfresh function argument
  | switch next =>
    obtain ⟨hcall, rfl⟩ := hstep
    exact sound_switch hI hcall
  | exit next cleanup =>
    obtain ⟨hcall, rfl⟩ := hstep
    exact sound_exit hI hcall

/-- The thread that a step gives the processor to. -/
def Event.resumes : Event → Option Word
  | .switch next => some next
  | .exit next _ => some next
  | _ => none

/-- A suspended thread stays as it is until it is resumed. -/
theorem saved_step {image : Image} {x y : World} {e : Event} (h : Sound image x)
    (hstep : step image x e y) {t : Word} {s : Suspension} (hs : x.saved t = some s)
    (hother : e.resumes ≠ some t) : y.saved t = some s := by
  cases e with
  | user after =>
    obtain ⟨-, rfl⟩ := hstep
    exact hs
  | create thread stack function argument =>
    obtain ⟨hfresh, rfl⟩ := hstep
    have hne : t ≠ thread := fun ht => hfresh.notLive (ht ▸ live_of_saved hs)
    simpa [hne] using hs
  | switch next =>
    obtain ⟨-, rfl⟩ := hstep
    have hne : t ≠ next := fun ht => hother (by rw [ht]; rfl)
    have hcurrent : t ≠ x.current := by
      rintro rfl
      rw [h.running] at hs
      cases hs
    simpa [hne, hcurrent] using hs
  | exit next cleanup =>
    obtain ⟨-, rfl⟩ := hstep
    have hne : t ≠ next := fun ht => hother (by rw [ht]; rfl)
    simpa [hne] using hs

/-- So it does over any number of steps. -/
theorem saved_run {image : Image} {x z : World} {trace : List (Transition World Event)}
    (hx : (switching image).Reachable x) (hrun : (switching image).Run x trace z)
    {t : Word} {s : Suspension} (hs : x.saved t = some s)
    (hother : ∀ tr ∈ trace, tr.label.resumes ≠ some t) : z.saved t = some s := by
  induction hrun with
  | nil => exact hs
  | snoc hr hstep ih =>
    have hbefore := ih fun tr htr => hother tr (List.mem_append_left _ htr)
    have hlast := hother _ (List.mem_append_right _ (List.mem_singleton.mpr rfl))
    exact saved_step (sound_reachable (hr.reachable hx)) hstep hbefore hlast

/-- Either routine gives the next thread its registers back and makes it the
running thread. -/
theorem resume_step {image : Image} {x y : World} {e : Event} (h : Sound image x)
    (hstep : step image x e y) {t : Word} {s : Suspension} (hs : x.saved t = some s)
    (hresumes : e.resumes = some t) :
    Resumed y.machine s ∧ load y.machine.mem image.runningThread = t := by
  cases e with
  | user after => cases hresumes
  | create thread stack function argument => cases hresumes
  | switch next =>
    cases hresumes
    obtain ⟨hcall, rfl⟩ := hstep
    obtain ⟨hresumed, hvar, -⟩ := switch_spec h hcall hs
    exact ⟨hresumed, hvar⟩
  | exit next cleanup =>
    cases hresumes
    obtain ⟨hcall, rfl⟩ := hstep
    obtain ⟨hresumed, hvar, -⟩ := exit_spec h hcall hs
    exact ⟨hresumed, hvar⟩

/-- Context switching preserves every context. A thread that calls
`context_switch` and is later resumed, by either routine and after any other
switches, has the registers and the return address of its own call. A thread
built by `ut_create` has at its first switch the values of the fields of the
same name in the context laid out on its stack, goes on at `internal_start`
and is the running thread. The call of `cleanup_thread` changes no byte of the
frame of the thread on whose stack it is made. -/
theorem context_preserved {image : Image} {x : World} (hx : (switching image).Reachable x) :
    (∀ next y trace z e w, (switching image).step x (.switch next) y →
      (switching image).Run y trace z →
      (∀ tr ∈ trace, tr.label.resumes ≠ some x.current) → (switching image).step z e w →
      e.resumes = some x.current →
      Resumed w.machine (suspensionOf x.machine) ∧
        load w.machine.mem image.runningThread = x.current) ∧
    (∀ thread stack function argument y trace z e w,
      (switching image).step x (.create thread stack function argument) y →
      (switching image).Run y trace z →
      (∀ tr ∈ trace, tr.label.resumes ≠ some thread) → (switching image).step z e w →
      e.resumes = some thread →
      WordsAt y.machine.mem (load y.machine.mem thread.toNat).toNat (initialContext image).words ∧
        Resumed w.machine (suspensionOfNew image stack) ∧
        w.machine.rip = image.internalStart ∧
        load w.machine.mem image.runningThread = thread) ∧
    ∀ next cleanup s, ExitCall image x next cleanup → x.saved next = some s →
      ∀ a, s.frame.Contains a →
        (cleanup image.cleanupThread (cleanupEntry image x.machine)).mem a =
          x.machine.mem a := by
  have hsound := sound_reachable hx
  refine ⟨fun next y trace z e w hcall hrun hother hstep hresumes => ?_,
    fun thread stack function argument y trace z e w hcreate hrun hother hstep hresumes => ?_,
    fun next cleanup s hcall hs a ha => cleanup_protected hsound hcall ⟨next, s, hs, .inr ha⟩⟩
  · have hy := hx.next hcall
    obtain ⟨hcall, rfl⟩ := hcall
    have hne : x.current ≠ next := fun hc => hcall.suspended (hc ▸ hsound.running)
    have hsaved := saved_run hy hrun (t := x.current) (s := suspensionOf x.machine)
      (by simp [hne]) hother
    exact resume_step (sound_reachable (hrun.reachable hy)) hstep hsaved hresumes
  · have hy := hx.next hcreate
    obtain ⟨-, rfl⟩ := hcreate
    have hsaved := saved_run hy hrun (t := thread) (s := suspensionOfNew image stack) (by simp)
      hother
    have hstored := (sound_reachable hy).stored thread (suspensionOfNew image stack) (by simp)
    obtain ⟨hresumed, hvar⟩ := resume_step (sound_reachable (hrun.reachable hy)) hstep hsaved hresumes
    exact ⟨hstored.frame, hresumed, hresumed.rip, hvar⟩

/-- A main thread creates one thread and switches to it. -/
theorem context_preserved_first_switch :
    ∃ (image : Image) (w : World), w.machine.rip = image.internalStart ∧
      w.machine.regs .r12 = 0x44444444 ∧ load w.machine.mem image.runningThread = 0x20000 := by
  let image : Image := ⟨0x1000, 0x400, 0x500, 0x600⟩
  let regs : Reg → Word := fun
    | .rdi => 0x10000
    | .rsi => 0x20000
    | .rsp => 0xf000
    | _ => 0
  let x : World := ⟨⟨regs, fun _ => 0, 0⟩, 0x10000, fun _ => ⟨0x8000, 0x10000⟩, fun _ => none⟩
  have hx : (switching image).Reachable x := .start
    ⟨fun _ => rfl, by decide, .inr (by decide), .inr (by decide), .inr (by decide)⟩
  have honly : ∀ t, x.Live t → t = 0x10000 := fun t ht => ht.resolve_right fun hs => hs rfl
  have hfresh : FreshBlocks image x 0x20000 0x30000 := by
    refine ⟨fun hl => absurd (honly _ hl) (by decide), by decide, by decide, .inl (by decide),
      .inr (by decide), .inr (by decide), fun t ht => ?_⟩
    rw [honly t ht]
    exact ⟨.inr (by decide), .inr (by decide), .inr (by decide), .inr (by decide)⟩
  have hcreate : (switching image).step x (.create 0x20000 0x30000 0 0) _ := ⟨hfresh, rfl⟩
  have hswitch : (switching image).step _ (.switch 0x20000) _ :=
    ⟨(⟨rfl, rfl, by simp, by decide, by decide⟩ : SwitchCall { x with
      machine := { x.machine with mem := utCreate image 0x20000 0x30000 0 0 x.machine.mem }
      stackOf := Function.update x.stackOf 0x20000 ⟨0x30000, 0x30000 + stackSize⟩
      saved := Function.update x.saved 0x20000 (some (suspensionOfNew image 0x30000)) } 0x20000),
      rfl⟩
  have hfirst := (context_preserved hx).2.1 _ _ _ _ _ _ _ _ _ hcreate (.nil _)
    (fun _ h => absurd h List.not_mem_nil) hswitch rfl
  exact ⟨image, _, hfirst.2.2.1, hfirst.2.1.r12, hfirst.2.2.2⟩

end SistemasOperativos.ContextSwitch
