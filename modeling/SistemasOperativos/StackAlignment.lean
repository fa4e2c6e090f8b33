import SistemasOperativos.ContextSwitch

/-!
# Alignment of the stack when a thread exits

Compiled code has the stack pointer at a multiple of 16 at every call, so that
a function starts 8 bytes off. The context that `ut_create` lays out and the
frame that `context_switch` pushes both bring a thread back with the stack
pointer it expects. But the address of the first is a multiple of 16 and that
of the second is not, and `internal_exit` calls `cleanup_thread` with the stack
pointer at that address.
-/

namespace SistemasOperativos.StackAlignment

open TransitionRuns ByteMemory StackMachine ContextSwitch

/-- The machine with its threads, and which of them have not run yet. -/
structure Tracked where
  world : World
  fresh : Word → Bool

/-- A thread is fresh from its creation until it gets the processor. -/
def freshAfter (fresh : Word → Bool) : Event → Word → Bool
  | .user _ => fresh
  | .create thread .. => Function.update fresh thread true
  | .switch next => Function.update fresh next false
  | .exit next _ => Function.update fresh next false

/-- Blocks from malloc are aligned, and compiled code calls the two routines with the stack
pointer at a multiple of 16, before the return address is pushed. -/
def Aligned (x : World) : Event → Prop
  | .user _ => True
  | .create thread stack .. => thread.toNat % 16 = 0 ∧ stack.toNat % 16 = 0
  | .switch _ | .exit _ _ => (x.machine.sp + 8) % 16 = 0

/-- The runs of the two routines under compiled code that keeps the alignment. -/
def tracked (image : Image) : System Tracked Event where
  init x := Start image x.world ∧ ∀ t, x.fresh t = false
  step x e y :=
    step image x.world e y.world ∧ Aligned x.world e ∧ y.fresh = freshAfter x.fresh e

/-- The stack pointer with which `internal_exit` calls `cleanup_thread`. -/
def cleanupCallSp (image : Image) (m : Machine) : ℕ :=
  (run (fun _ m => m) [.movToVar .rsi image.runningThread, .movFromMem .rsi .rsp] m).sp

/-- Fresh threads start as if they were called, the others go on as after a call. -/
def Placed (image : Image) (fresh : Bool) (s : Suspension) : Prop :=
  if fresh then s.rsp.toNat % 16 = 8 ∧ s.context.retAddr = image.internalStart
  else s.rsp.toNat % 16 = 0

/-- What is known of the threads along a run. -/
structure Suspended (image : Image) (x : Tracked) : Prop where
  running : x.fresh x.world.current = false
  placed : ∀ t s, x.world.saved t = some s → Placed image (x.fresh t) s

variable {image : Image} {x y : Tracked}

/-- Without the fresh threads a run is one of the two routines. -/
theorem world_reachable (hx : (tracked image).Reachable x) :
    (switching image).Reachable x.world := by
  induction hx with
  | start h => exact .start h.1
  | next _ h ih => exact ih.next h.1

/-- The stack pointer of a new thread. -/
theorem suspensionOfNew_mod {stack : Word} (hbound : stack.toNat + stackSize < 2 ^ 64)
    (halign : stack.toNat % 16 = 0) : (suspensionOfNew image stack).rsp.toNat % 16 = 8 := by
  simp only [stackSize] at hbound
  simp only [suspensionOfNew, initialFrame, stackSize, sizeofContext, BitVec.toNat_ofNat]
  omega

/-- A new thread starts at `internal_start`. -/
theorem placed_new {stack : Word} (hbound : stack.toNat + stackSize < 2 ^ 64)
    (halign : stack.toNat % 16 = 0) : Placed image true (suspensionOfNew image stack) := by
  rw [Placed, if_pos rfl]
  refine ⟨suspensionOfNew_mod hbound halign, ?_⟩
  simp only [suspensionOfNew, initialContext]

/-- The caller of `context_switch` goes on as after a call. -/
theorem placed_caller {m : Machine} (halign : (m.sp + 8) % 16 = 0) :
    Placed image false (suspensionOf m) := by
  rw [Placed, if_neg Bool.false_ne_true]
  simp only [Machine.sp] at halign
  simp only [suspensionOf]
  bv_omega

/-- Every step keeps what is known of the threads. -/
theorem Suspended.step {e : Event} (h : Suspended image x) (hstep : (tracked image).step x e y) :
    Suspended image y := by
  obtain ⟨hworld, halign, hfresh⟩ := hstep
  cases e with
  | user after =>
    obtain ⟨-, hy⟩ := hworld
    constructor
    · rw [hy, hfresh]
      exact h.running
    · rw [hy, hfresh]
      exact h.placed
  | create thread stack function argument =>
    obtain ⟨hblocks, hy⟩ := hworld
    have hcurrent : x.world.current ≠ thread := fun hc => hblocks.notLive (.inl hc.symm)
    constructor
    · rw [hy, hfresh]
      exact (Function.update_of_ne hcurrent _ _).trans h.running
    · intro t s hs
      rw [hy] at hs
      rw [hfresh]
      dsimp only [freshAfter] at hs ⊢
      by_cases ht : t = thread
      · rw [ht, Function.update_self] at hs ⊢
        rw [← Option.some.inj hs]
        exact placed_new hblocks.stack_bound halign.2
      · rw [Function.update_of_ne ht] at hs ⊢
        exact h.placed t s hs
  | switch next =>
    obtain ⟨hcall, hy⟩ := hworld
    constructor
    · rw [hy, hfresh]
      exact Function.update_self _ _ _
    · intro t s hs
      rw [hy] at hs
      rw [hfresh]
      dsimp only [freshAfter] at hs ⊢
      by_cases ht : t = next
      · rw [ht, Function.update_self] at hs
        cases hs
      · rw [Function.update_of_ne ht] at hs ⊢
        by_cases htc : t = x.world.current
        · rw [htc, Function.update_self] at hs
          rw [← Option.some.inj hs, htc, h.running]
          exact placed_caller halign
        · rw [Function.update_of_ne htc] at hs
          exact h.placed t s hs
  | exit next cleanup =>
    obtain ⟨hcall, hy⟩ := hworld
    constructor
    · rw [hy, hfresh]
      exact Function.update_self _ _ _
    · intro t s hs
      rw [hy] at hs
      rw [hfresh]
      dsimp only [freshAfter] at hs ⊢
      by_cases ht : t = next
      · rw [ht, Function.update_self] at hs
        cases hs
      · rw [Function.update_of_ne ht] at hs ⊢
        exact h.placed t s hs

theorem suspended_reachable (hx : (tracked image).Reachable x) : Suspended image x := by
  refine System.Reachable.invariant (I := Suspended image) ?_ ?_ hx
  · rintro x ⟨hstart, hfresh⟩
    refine ⟨hfresh _, fun t s hs => ?_⟩
    rw [hstart.alone t] at hs
    cases hs
  · exact fun x e y _ hI hstep => hI.step hstep

/-- The call of `cleanup_thread` is made with the stack pointer at the frame of the next thread. -/
theorem cleanupCallSp_eq (hx : (tracked image).Reachable x) {next : Word} {s : Suspension}
    (hrsi : x.world.machine.regs .rsi = next) (hs : x.world.saved next = some s) :
    cleanupCallSp image x.world.machine + sizeofContext = s.rsp.toNat := by
  have hsound := sound_reachable (world_reachable hx)
  have hstored := hsound.stored next s hs
  have hvar := hsound.separate.var_field next (live_of_saved hs)
  simp only [Region.Apart, contextField, runningVar] at hvar
  have hload : load (store x.world.machine.mem image.runningThread next) next.toNat =
      load x.world.machine.mem next.toNat := load_store_disjoint (by omega)
  have hsp : cleanupCallSp image x.world.machine = (load x.world.machine.mem next.toNat).toNat := by
    simp [cleanupCallSp, Machine.sp, exec, Machine.setReg, hrsi, hload]
  rw [hsp]
  exact hstored.pointer

/-- The call is aligned exactly if the next thread is fresh. -/
theorem cleanup_call_aligned_iff (hx : (tracked image).Reachable x) {next : Word}
    {cleanup : Word → Machine → Machine} (hcall : ExitCall image x.world next cleanup) :
    cleanupCallSp image x.world.machine % 16 = 0 ↔ x.fresh next = true := by
  obtain ⟨s, hs⟩ := Option.ne_none_iff_exists'.mp hcall.suspended
  have hsp := cleanupCallSp_eq hx hcall.rsi hs
  have hplaced := (suspended_reachable hx).placed next s hs
  generalize cleanupCallSp image x.world.machine = sp at hsp ⊢
  simp only [sizeofContext] at hsp
  cases hfresh : x.fresh next with
  | false =>
    rw [Placed, hfresh, if_neg Bool.false_ne_true] at hplaced
    have hsp8 : sp % 16 ≠ 0 := by omega
    exact iff_of_false hsp8 Bool.false_ne_true
  | true =>
    rw [Placed, hfresh, if_pos rfl] at hplaced
    have hsp0 : sp % 16 = 0 := by omega
    exact iff_of_true hsp0 rfl

/-- A fresh thread that gets the processor enters `internal_start` as if it were called. -/
theorem fresh_entry {e : Event} (hx : (tracked image).Reachable x)
    (hstep : (tracked image).step x e y) {t : Word} (hresumes : e.resumes = some t)
    (hfresh : x.fresh t = true) :
    y.world.machine.rip = image.internalStart ∧ y.world.machine.sp % 16 = 8 := by
  have hsaved : x.world.saved t ≠ none := by
    cases e with
    | user after => cases hresumes
    | create => cases hresumes
    | switch next =>
      cases hresumes
      exact hstep.1.1.suspended
    | exit next cleanup =>
      cases hresumes
      exact hstep.1.1.suspended
  obtain ⟨s, hs⟩ := Option.ne_none_iff_exists'.mp hsaved
  have hplaced := (suspended_reachable hx).placed t s hs
  rw [Placed, hfresh, if_pos rfl] at hplaced
  obtain ⟨hresumed, -⟩ :=
    resume_step (sound_reachable (world_reachable hx)) hstep.1 hs hresumes
  refine ⟨hresumed.rip.trans hplaced.2, ?_⟩
  rw [Machine.sp, hresumed.rsp]
  exact hplaced.1

/-- A step makes its calls aligned: the call of `cleanup_thread` in `internal_exit`, and the
entry into `internal_start`. -/
def CallsAligned (image : Image) (tr : Transition Tracked Event) : Prop :=
  (∀ next cleanup, tr.label = .exit next cleanup →
    cleanupCallSp image tr.source.world.machine % 16 = 0) ∧
  ∀ t, tr.label.resumes = some t → tr.source.fresh t = true →
    tr.target.world.machine.rip = image.internalStart ∧ tr.target.world.machine.sp % 16 = 8

/-- A thread only exits when the next one has not run yet. -/
def ExitsToFresh (tr : Transition Tracked Event) : Prop :=
  ∀ next cleanup, tr.label = .exit next cleanup → tr.source.fresh next = true

/-- The calls on switched-to stacks are aligned along a run exactly if every thread that exits
hands over to a thread that has not run yet. The entry into `internal_start` always is. -/
theorem calls_aligned_iff {trace : List (Transition Tracked Event)}
    (hx : (tracked image).Reachable x) (hrun : (tracked image).Run x trace y) :
    (∀ tr ∈ trace, CallsAligned image tr) ↔ ∀ tr ∈ trace, ExitsToFresh tr := by
  refine forall₂_congr fun tr htr => ?_
  obtain ⟨hsource, hstep⟩ := hrun.transition hx htr
  have hcall : ∀ next cleanup, tr.label = .exit next cleanup →
      ExitCall image tr.source.world next cleanup := by
    intro next cleanup hlabel
    rw [hlabel] at hstep
    exact hstep.1.1
  constructor
  · intro haligned next cleanup hlabel
    exact (cleanup_call_aligned_iff hsource (hcall next cleanup hlabel)).mp
      (haligned.1 next cleanup hlabel)
  · intro hfresh
    refine ⟨fun next cleanup hlabel => ?_, fun t hresumes ht => fresh_entry hsource hstep hresumes ht⟩
    exact (cleanup_call_aligned_iff hsource (hcall next cleanup hlabel)).mpr
      (hfresh next cleanup hlabel)

/-- A `cleanup_thread` that releases nothing. -/
def justReturn (_ : Word) (m : Machine) : Machine := m.setReg .rsp (m.regs .rsp + 8)

theorem justReturn_contract (image : Image) (x : World) (next : Word) :
    CleanupContract image x next justReturn where
  rsp := rfl
  callee_saved r hr := by
    have hne : r ≠ .rsp := by
      rintro rfl
      exact absurd hr (by decide)
    exact Function.update_of_ne hne _ _
  writes a ha := absurd rfl ha

/-- A step of the two routines, with the threads that are fresh after it. -/
theorem reachable_next (e : Event) (w : World) (hx : (tracked image).Reachable x)
    (halign : Aligned x.world e) (hstep : step image x.world e w) :
    (tracked image).Reachable ⟨w, freshAfter x.fresh e⟩ :=
  hx.next ⟨hstep, halign, rfl⟩

/-- A main thread at `0x10000` creates two threads and switches to the first one, which exits to
the main thread or to the other. -/
theorem exit_reachable (next : Word) (hnext : next = 0x10000 ∨ next = 0x40000) :
    ∃ (image : Image) (x y : Tracked), (tracked image).Reachable x ∧
      (tracked image).step x (.exit next justReturn) y ∧
      x.fresh next = decide (next = 0x40000) := by
  let image : Image := ⟨0x1000, 0x400, 0x500, 0x600⟩
  let regs (current next rsp : Word) : Reg → Word := fun
    | .rdi => current
    | .rsi => next
    | .rsp => rsp
    | _ => 0
  let w₀ : World := ⟨⟨regs 0x10000 0x20000 0xeff8, fun _ => 0, 0⟩, 0x10000,
    fun _ => ⟨0x8000, 0x10000⟩, fun _ => none⟩
  let w₁ : World := { w₀ with
    machine := { w₀.machine with mem := utCreate image 0x20000 0x30000 0 0 w₀.machine.mem }
    stackOf := Function.update w₀.stackOf 0x20000 ⟨0x30000, 0x30000 + stackSize⟩
    saved := Function.update w₀.saved 0x20000 (some (suspensionOfNew image 0x30000)) }
  let w₂ : World := { w₁ with
    machine := { w₁.machine with mem := utCreate image 0x40000 0x50000 0 0 w₁.machine.mem }
    stackOf := Function.update w₁.stackOf 0x40000 ⟨0x50000, 0x50000 + stackSize⟩
    saved := Function.update w₁.saved 0x40000 (some (suspensionOfNew image 0x50000)) }
  let w₃ : World := { w₂ with
    machine := run (fun _ m => m) (contextSwitch image) w₂.machine
    current := 0x20000
    saved := Function.update
      (Function.update w₂.saved 0x10000 (some (suspensionOf w₂.machine))) 0x20000 none }
  let w₄ : World := { w₃ with machine := ⟨regs 0x20000 next 0x37f78, w₃.machine.mem, 0⟩ }
  have h₀ : (tracked image).Reachable ⟨w₀, fun _ => false⟩ := .start
    ⟨⟨fun _ => rfl, by decide, .inr (by decide), .inr (by decide), .inr (by decide)⟩,
      fun _ => rfl⟩
  have hlive₀ : ∀ t, w₀.Live t → t = 0x10000 := fun t ht => ht.resolve_right fun hs => hs rfl
  have hblocks₁ : FreshBlocks image w₀ 0x20000 0x30000 := by
    refine ⟨fun hl => absurd (hlive₀ _ hl) (by decide), by decide, by decide, .inl (by decide),
      .inr (by decide), .inr (by decide), fun t ht => ?_⟩
    rw [hlive₀ t ht]
    exact ⟨.inr (by decide), .inr (by decide), .inr (by decide), .inr (by decide)⟩
  have h₁ := reachable_next (.create 0x20000 0x30000 0 0) w₁ h₀
    ⟨by decide, by decide⟩ ⟨hblocks₁, rfl⟩
  have hlive₁ : ∀ t, w₁.Live t → t = 0x10000 ∨ t = 0x20000 := by
    rintro t (ht | ht)
    · exact .inl ht
    · refine .inr (by_contra fun hne => ht ?_)
      exact Function.update_of_ne hne _ _
  have hblocks₂ : FreshBlocks image w₁ 0x40000 0x50000 := by
    refine ⟨fun hl => absurd (hlive₁ _ hl) (by decide), by decide, by decide, .inl (by decide),
      .inr (by decide), .inr (by decide), fun t ht => ?_⟩
    obtain rfl | rfl := hlive₁ t ht
    · exact ⟨.inr (by decide), .inr (by decide), .inr (by decide), .inr (by decide)⟩
    · exact ⟨.inr (by decide), .inr (by decide), .inr (by decide), .inr (by decide)⟩
  have h₂ := reachable_next (.create 0x40000 0x50000 0 0) w₂ h₁
    ⟨by decide, by decide⟩ ⟨hblocks₂, rfl⟩
  have hcall : SwitchCall w₂ 0x20000 := ⟨rfl, rfl, by simp [w₂, w₁], by decide, by decide⟩
  have halign₂ : (w₂.machine.sp + 8) % 16 = 0 := by decide
  have h₃ := reachable_next (.switch 0x20000) w₃ h₂ halign₂ ⟨hcall, rfl⟩
  have h₄ := reachable_next (.user w₄.machine) w₄ h₃ trivial
    ⟨fun a ha => absurd rfl ha, rfl⟩
  have hsaved : w₄.saved next ≠ none := by
    obtain rfl | rfl := hnext
    · simp [w₄, w₃]
    · simp [w₄, w₃, w₂]
  have hsp : w₄.machine.sp = 0x37f78 := rfl
  have halign₄ : (w₄.machine.sp + 8) % 16 = 0 := by rw [hsp]
  refine ⟨image, _, ⟨_, _⟩, h₄, ⟨⟨⟨rfl, rfl, hsaved, justReturn_contract _ _ _⟩, rfl⟩,
    halign₄, rfl⟩, ?_⟩
  obtain rfl | rfl := hnext
  · rfl
  · rfl

/-- The first thread exits to the main thread, which was suspended in `context_switch`. -/
theorem exit_to_main_misaligned :
    ∃ (image : Image) (x y : Tracked), (tracked image).Reachable x ∧
      (tracked image).step x (.exit 0x10000 justReturn) y ∧
      cleanupCallSp image x.world.machine % 16 ≠ 0 := by
  obtain ⟨image, x, y, hx, hstep, hfresh⟩ := exit_reachable 0x10000 (.inl rfl)
  refine ⟨image, x, y, hx, hstep, fun hcall => ?_⟩
  rw [(cleanup_call_aligned_iff hx hstep.1.1).mp hcall] at hfresh
  exact absurd hfresh (by decide)

/-- The first thread exits to the second one, which has not run yet. -/
theorem calls_aligned_iff_new :
    ∃ (image : Image) (x y : Tracked), (tracked image).step x (.exit 0x40000 justReturn) y ∧
      cleanupCallSp image x.world.machine % 16 = 0 ∧
      y.world.machine.rip = image.internalStart ∧ y.world.machine.sp % 16 = 8 := by
  obtain ⟨image, x, y, hx, hstep, hfresh⟩ := exit_reachable 0x40000 (.inr rfl)
  have hnew : x.fresh 0x40000 = true := hfresh.trans (by decide)
  have hexits : ∀ tr ∈ [⟨x, .exit 0x40000 justReturn, y⟩], ExitsToFresh tr := by
    intro tr htr next cleanup hlabel
    obtain rfl := List.mem_singleton.mp htr
    cases hlabel
    exact hnew
  obtain ⟨hcall, hentry⟩ := (calls_aligned_iff hx (.cons hstep (.nil y))).mpr hexits _
    (List.mem_singleton_self _)
  exact ⟨image, x, y, hstep, hcall _ _ rfl, hentry _ rfl hnew⟩

end SistemasOperativos.StackAlignment
