import Mathlib.Tactic
import SistemasOperativos.ByteMemory

/-!
# A machine with a stack in memory

The part of the x86-64 instruction set that switches stacks: pushes, pops,
moves through a pointer, a store in a static variable, calls and returns.
A called routine is a function on machine states. Pushing registers lays
their values out upwards from the new stack pointer, and popping reads such
a run of words back.
-/

namespace SistemasOperativos.StackMachine

open ByteMemory

/-- The integer registers. -/
inductive Reg where
  | rax | rbx | rcx | rdx | rsi | rdi | rbp | rsp | r8 | r9 | r10 | r11 | r12 | r13 | r14 | r15
  deriving DecidableEq

/-- Registers, memory and the address of the next instruction. -/
structure Machine where
  /-- Contents of the registers. -/
  regs : Reg → Word
  /-- Contents of the memory. -/
  mem : Memory
  /-- Where execution goes on. -/
  rip : Word

/-- The instructions, with the destination last. -/
inductive Instr where
  | push (src : Reg)
  | pop (dst : Reg)
  | movToMem (src base : Reg)
  | movFromMem (base dst : Reg)
  | movToVar (src : Reg) (address : ℕ)
  | call (target returnAddress : Word)
  | ret

/-- Address in the stack pointer. -/
def Machine.sp (m : Machine) : ℕ := (m.regs .rsp).toNat

/-- Replace one register. -/
def Machine.setReg (m : Machine) (r : Reg) (w : Word) : Machine :=
  { m with regs := Function.update m.regs r w }

/-- Push a word. -/
def Machine.pushWord (m : Machine) (w : Word) : Machine :=
  let m := m.setReg .rsp (m.regs .rsp - 8)
  { m with mem := store m.mem m.sp w }

/-- Execute one instruction; the callee of a call runs as a whole. -/
def exec (callee : Word → Machine → Machine) : Instr → Machine → Machine
  | .push src, m => m.pushWord (m.regs src)
  | .pop dst, m => (m.setReg .rsp (m.regs .rsp + 8)).setReg dst (load m.mem m.sp)
  | .movToMem src base, m => { m with mem := store m.mem (m.regs base).toNat (m.regs src) }
  | .movFromMem base dst, m => m.setReg dst (load m.mem (m.regs base).toNat)
  | .movToVar src address, m => { m with mem := store m.mem address (m.regs src) }
  | .call target returnAddress, m => callee target (m.pushWord returnAddress)
  | .ret, m => { m.setReg .rsp (m.regs .rsp + 8) with rip := load m.mem m.sp }

/-- Execute straight-line code. -/
def run (callee : Word → Machine → Machine) (code : List Instr) (m : Machine) : Machine :=
  code.foldl (fun m i => exec callee i m) m

@[simp] theorem run_nil (callee : Word → Machine → Machine) (m : Machine) :
    run callee [] m = m := rfl

@[simp] theorem run_cons (callee : Word → Machine → Machine) (i : Instr) (code : List Instr)
    (m : Machine) : run callee (i :: code) m = run callee code (exec callee i m) := rfl

theorem run_append (callee : Word → Machine → Machine) (code more : List Instr) (m : Machine) :
    run callee (code ++ more) m = run callee more (run callee code m) := List.foldl_append

/-- A push moves the stack pointer down by one word. -/
theorem pushWord_sp {m : Machine} (h : 8 ≤ m.sp) (w : Word) : (m.pushWord w).sp = m.sp - 8 := by
  simp only [Machine.sp, Machine.pushWord, Machine.setReg, Function.update_self] at h ⊢
  bv_omega

/-- A push keeps the other registers. -/
theorem pushWord_regs (m : Machine) (w : Word) {r : Reg} (hr : r ≠ .rsp) :
    (m.pushWord w).regs r = m.regs r := by
  simp [Machine.pushWord, Machine.setReg, hr]

/-- A push extends the words on top of the stack. -/
theorem pushWord_words {m : Machine} (h : 8 ≤ m.sp) {ws : List Word}
    (hws : WordsAt m.mem m.sp ws) (w : Word) :
    WordsAt (m.pushWord w).mem (m.pushWord w).sp (w :: ws) := by
  have hsp := pushWord_sp h w
  have hmem : (m.pushWord w).mem = store m.mem (m.pushWord w).sp w := rfl
  rw [hmem]
  refine WordsAt.push ?_ w
  rwa [hsp, Nat.sub_add_cancel h]

/-- A push writes only the word below the stack pointer. -/
theorem pushWord_outside {m : Machine} (h : 8 ≤ m.sp) (w : Word) {x : ℕ}
    (hx : x < m.sp - 8 ∨ m.sp ≤ x) : (m.pushWord w).mem x = m.mem x := by
  have hsp := pushWord_sp h w
  have hmem : (m.pushWord w).mem = store m.mem (m.pushWord w).sp w := rfl
  rw [hmem, store_outside (by omega)]

/-- What a sequence of pushes leaves. -/
theorem run_pushes (callee : Word → Machine → Machine) (rs : List Reg) :
    ∀ {m : Machine} {ws : List Word}, Reg.rsp ∉ rs → 8 * rs.length ≤ m.sp →
      WordsAt m.mem m.sp ws →
      let m' := run callee (rs.map .push) m
      m'.sp = m.sp - 8 * rs.length ∧ (∀ r, r ≠ .rsp → m'.regs r = m.regs r) ∧
        WordsAt m'.mem m'.sp (rs.reverse.map m.regs ++ ws) ∧
        ∀ x, x < m.sp - 8 * rs.length ∨ m.sp ≤ x → m'.mem x = m.mem x := by
  induction rs with
  | nil => exact fun _ _ hws => ⟨rfl, fun _ _ => rfl, hws, fun _ _ => rfl⟩
  | cons r rest ih =>
    intro m ws hrs hroom hws
    simp only [List.length_cons] at hroom ⊢
    have hr : r ≠ .rsp := fun h => hrs (h ▸ List.mem_cons_self)
    have hrest : Reg.rsp ∉ rest := fun h => hrs (List.mem_cons_of_mem r h)
    have h8 : 8 ≤ m.sp := by omega
    have hsp := pushWord_sp h8 (m.regs r)
    have hwords := pushWord_words h8 hws (m.regs r)
    obtain ⟨hsp', hregs, hwords', houtside⟩ := ih (m := m.pushWord (m.regs r)) hrest (by omega) hwords
    refine ⟨hsp'.trans (by omega), fun q hq => (hregs q hq).trans (pushWord_regs m _ hq), ?_,
      fun x hx => ?_⟩
    · have hsame : rest.reverse.map (m.pushWord (m.regs r)).regs = rest.reverse.map m.regs := by
        refine List.map_congr_left fun q hq => pushWord_regs m _ ?_
        rintro rfl
        exact hrest (List.mem_reverse.mp hq)
      rw [hsame] at hwords'
      rw [List.reverse_cons, List.map_append, List.append_assoc]
      exact hwords'
    · exact (houtside x (by omega)).trans (pushWord_outside h8 _ (by omega))

/-- What a sequence of pops loads. -/
theorem run_pops (callee : Word → Machine → Machine) (rs : List Reg) :
    ∀ {m : Machine} (ws more : List Word), rs.Nodup → Reg.rsp ∉ rs → rs.length = ws.length →
      m.sp + 8 * rs.length < 2 ^ 64 → WordsAt m.mem m.sp (ws ++ more) →
      let m' := run callee (rs.map .pop) m
      m'.sp = m.sp + 8 * rs.length ∧ rs.map m'.regs = ws ∧
        (∀ r, r ∉ rs → r ≠ .rsp → m'.regs r = m.regs r) ∧ m'.mem = m.mem ∧
        WordsAt m'.mem m'.sp more := by
  induction rs with
  | nil =>
    intro m ws more _ _ hlen _ hws
    have hnil : ws = [] := List.length_eq_zero_iff.mp hlen.symm
    subst hnil
    exact ⟨rfl, rfl, fun _ _ _ => rfl, rfl, hws⟩
  | cons r rest ih =>
    intro m ws more hnodup hrs hlen hbound hws
    obtain ⟨hfresh, hrestNodup⟩ := List.nodup_cons.mp hnodup
    have hr : r ≠ .rsp := fun h => hrs (h ▸ List.mem_cons_self)
    have hrest : Reg.rsp ∉ rest := fun h => hrs (List.mem_cons_of_mem r h)
    cases ws with
    | nil => simp at hlen
    | cons w ws =>
      simp only [List.length_cons, Nat.add_right_cancel_iff] at hlen hbound ⊢
      obtain ⟨hload, hmore⟩ := hws
      have hsp : (exec callee (.pop r) m).sp = m.sp + 8 := by
        simp only [Machine.sp, exec, Machine.setReg, Function.update_of_ne (Ne.symm hr),
          Function.update_self] at hbound ⊢
        bv_omega
      have hreg : (exec callee (.pop r) m).regs r = w := by simp [exec, Machine.setReg, hload]
      obtain ⟨hsp', hregs, hkept, hmem, hleft⟩ := ih (m := exec callee (.pop r) m) ws more
        hrestNodup hrest
        hlen (by omega) (by rw [hsp]; exact hmore)
      refine ⟨hsp'.trans (by omega), ?_, fun q hq hqs => ?_, hmem, hleft⟩
      · rw [List.map_cons, List.map_cons, run_cons, hkept r hfresh hr, hreg, hregs]
      · have hqr : q ≠ r := fun h => hq (h ▸ List.mem_cons_self)
        rw [List.map_cons, run_cons, hkept q (fun h => hq (List.mem_cons_of_mem r h)) hqs]
        simp [exec, Machine.setReg, hqr, hqs]

/-- A return pops the address at which execution goes on. -/
theorem exec_ret (callee : Word → Machine → Machine) {m : Machine} {w : Word}
    {more : List Word} (hbound : m.sp + 8 < 2 ^ 64) (hw : WordsAt m.mem m.sp (w :: more)) :
    (exec callee .ret m).rip = w ∧ (exec callee .ret m).sp = m.sp + 8 ∧
      (∀ r, r ≠ .rsp → (exec callee .ret m).regs r = m.regs r) ∧
      (exec callee .ret m).mem = m.mem := by
  refine ⟨hw.1, ?_, fun r hr => by simp [exec, Machine.setReg, hr], rfl⟩
  simp only [Machine.sp, exec, Machine.setReg, Function.update_self] at hbound ⊢
  bv_omega

end SistemasOperativos.StackMachine
