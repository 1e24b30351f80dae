/-
# What goes on and off the stack in a run

Pushes, pops, subroutine calls, interrupts and their returns move words on the stack and off it. A run
has a record of these words in their order, with the two things between them that reach into the stack
from outside: the terminal clears the output word that it has printed, and it writes a typed character
into the input word. A push records the word that it takes from a register, and a pop the word that has
arrived in one, so the record is of what a program sees.

If instructions move the stack pointer and write memory in no other way, the record tells all of what
happens to the memory and the stack pointer: both follow from it, word by word.

Key definitions: `StackEvent`, `Cpu.traffic`, `Cpu.Disciplined`, `Session.traffic`,
`Session.Disciplined`, `StackEvent.Plays`, `Plays`.
Key theorems: `Cpu.plays_traffic`, `Hook.spares_after`, `Session.plays_cycle`, `Session.plays_steps`.
-/
import Sx16.Proofs.Processor.Addressed
import Sx16.Proofs.Run.Requests

namespace Sx16

open Exec

/-! ### The record -/

/-- What happens to the stack or to the terminal's words. -/
inductive StackEvent where
  /-- A word has been put on the stack at an address. -/
  | pushed (slot value : UInt16)
  /-- A word has been taken off the stack at an address. -/
  | popped (slot value : UInt16)
  /-- The terminal has printed its output word and cleared it. -/
  | printed
  /-- The terminal has written a typed character into its input word. -/
  | typed (b : UInt8)
  deriving DecidableEq

/-- The stack pointer after an event. -/
def StackEvent.move (sp : UInt16) : StackEvent → UInt16
  | pushed _ _ => sp - 2
  | popped _ _ => sp + 2
  | printed | typed _ => sp

/-- Whether an event comes from the terminal, not from the program. -/
def StackEvent.isDevice : StackEvent → Bool
  | pushed _ _ | popped _ _ => false
  | printed | typed _ => true

namespace Cpu

/-- The contents of the register with a number; 0 if there is none. -/
def contents (c : Cpu) (i : UInt8) : UInt16 :=
  match Register.ofIndex? i with
  | some r => c.reg r
  | none => 0

/-- What the instruction of a state puts on the stack and takes off it, if it leaves the state `c'`. -/
def traffic (c c' : Cpu) : List StackEvent :=
  match Opcode.ofCode? (c.memory.byte c.pc) with
  | some .int => [.pushed (c.sp - 2) (c.pc + 2), .pushed (c.sp - 2 - 2) c.psw]
  | some .iret => [.popped c.sp c'.psw, .popped (c.sp + 2) c'.pc]
  | some .ret => [.popped c.sp c'.pc]
  | some .call =>
    match decode.run (c.past 1) with
    | .ok _ c1 => [.pushed (c.sp - 2) c1.pc]
    | .error _ _ => []
  | some .ldr =>
    match decode.run (c.past 1) with
    | .ok o _ => if isPop o then [.popped c.sp (c'.contents o.descriptor.dst)] else []
    | .error _ _ => []
  | some .str =>
    match decode.run (c.past 1) with
    | .ok o c1 => if isPush o then [.pushed (c.sp - 2) (c1.contents o.descriptor.dst)] else []
    | .error _ _ => []
  | _ => []

/-- An instruction that moves the stack pointer by its pushes and pops alone, and writes memory by its
pushes alone. -/
structure Disciplined (c c' : Cpu) : Prop where
  sp : c'.sp = (c.traffic c').foldl StackEvent.move c.sp
  memory : (∀ slot value, .pushed slot value ∉ c.traffic c') → c'.memory = c.memory

/-- What a check for interrupts puts on the stack. -/
def entryTraffic (c : Cpu) : List StackEvent :=
  match checkInterrupts.run c with
  | .ok (some _) _ => [.pushed (c.sp - 2) c.pc, .pushed (c.sp - 2 - 2) c.psw]
  | .ok none _ | .error _ _ => []

end Cpu

namespace Hook

/-- What a hook does to the terminal's words; nothing if it is refused its output. -/
def traffic (c : Cpu) : Hook → List StackEvent
  | terminal t =>
    if (t.after c).2.2.2.isSome then []
    else
      (if c.memory.word terminalOut = 0 then [] else [.printed]) ++ (t.input.head?.map .typed).toList
  | timer _ | script _ | dump _ | trace => []

/-- What hooks do to the terminal's words, one after the other up to the first that is refused. -/
def trafficAll (now time : Nat) (r : Retired) (c : Cpu) : List Hook → List StackEvent
  | [] => []
  | h :: hs =>
    h.traffic c ++
      if (h.after now time r c).2.2.2.isSome then []
      else trafficAll now time r (h.after now time r c).2.1 hs

end Hook

namespace Session

/-- The record of one instruction, the hooks after it and the check for interrupts. -/
def cycleTraffic (s : Session) (now time : Nat) : List StackEvent :=
  match Cpu.step.run s.cpu with
  | .error _ _ => []
  | .ok r c =>
    s.cpu.traffic c ++
      if c.halted then []
      else
        let (_, c', _, refusal) := Hook.afterAll now time r c s.hooks
        Hook.trafficAll now time r c s.hooks ++ if refusal.isSome then [] else c'.entryTraffic

/-- The record of at most `left` instructions, the first of them with number `time`. -/
def traffic (clock : Nat → Nat) : (left time : Nat) → Session → List StackEvent
  | 0, _, _ => []
  | left + 1, time, s =>
    s.cycleTraffic (clock time) time ++
      match s.cycle (clock time) time with
      | .running s' => traffic clock left (time + 1) s'
      | .halted _ | .faulty _ _ => []

/-- Each of at most `left` instructions is disciplined. -/
def Disciplined (clock : Nat → Nat) : (left time : Nat) → Session → Prop
  | 0, _, _ => True
  | left + 1, time, s =>
    (∀ r c, Cpu.step.run s.cpu = .ok r c → s.cpu.Disciplined c) ∧
      ∀ s', s.cycle (clock time) time = .running s' → Disciplined clock left (time + 1) s'

end Session

/-! ### Memory and stack pointer along a record -/

/-- What an event makes of a memory and a stack pointer. A push does not come to address 0, a pop gives
the word at the stack pointer. -/
inductive StackEvent.Plays : StackEvent → Memory → UInt16 → Memory → UInt16 → Prop where
  | pushed (m : Memory) {sp : UInt16} (v : UInt16) (hroom : sp - 2 ≠ 0) :
    Plays (.pushed (sp - 2) v) m sp (m.putWord (sp - 2) v) (sp - 2)
  | popped (m : Memory) (sp : UInt16) : Plays (.popped sp (m.word sp)) m sp m (sp + 2)
  | printed (m : Memory) (sp : UInt16) : Plays .printed m sp (m.putWord terminalOut 0) sp
  | typed (m : Memory) (sp : UInt16) (b : UInt8) :
    Plays (.typed b) m sp (m.putWord terminalIn b.toUInt16) sp

/-- What a record makes of a memory and a stack pointer, one event after the other. -/
inductive Plays : List StackEvent → Memory → UInt16 → Memory → UInt16 → Prop where
  | nil (m : Memory) (sp : UInt16) : Plays [] m sp m sp
  | cons {e : StackEvent} {es : List StackEvent} {m m1 m' : Memory} {sp sp1 sp' : UInt16}
    (h : e.Plays m sp m1 sp1) (hr : Plays es m1 sp1 m' sp') : Plays (e :: es) m sp m' sp'

section Plays

variable {e : StackEvent} {es fs : List StackEvent} {m m1 m' : Memory} {sp sp1 sp' : UInt16}

theorem StackEvent.Plays.alone (h : e.Plays m sp m' sp') : Sx16.Plays [e] m sp m' sp' := .cons h (.nil _ _)

theorem Plays.append (h : Plays es m sp m1 sp1) (h' : Plays fs m1 sp1 m' sp') :
    Plays (es ++ fs) m sp m' sp' := by
  induction h with
  | nil => exact h'
  | cons he _ ih => exact .cons he (ih h')

theorem StackEvent.Plays.sp_eq (h : e.Plays m sp m' sp') : sp' = e.move sp := by
  cases h <;> rfl

theorem Plays.sp_eq (h : Plays es m sp m' sp') : sp' = es.foldl StackEvent.move sp := by
  induction h with
  | nil => rfl
  | cons he _ ih => rw [ih, he.sp_eq, List.foldl_cons]

theorem byte_putWord_ne {a b v : UInt16} (h : (m.putWord a v).byte b ≠ m.byte b) :
    b = a ∨ b = a + 1 := by
  rw [Cpu.byte_putWord] at h
  by_cases hhigh : a + 1 = b
  · exact .inr hhigh.symm
  · by_cases hlow : a = b
    · exact .inl hlow.symm
    · rw [if_neg hhigh, if_neg hlow] at h
      exact absurd rfl h

theorem StackEvent.Plays.of_device (h : e.Plays m sp m' sp') (he : e.isDevice = true) :
    sp' = sp ∧ ∀ a, m'.byte a ≠ m.byte a → terminalOut ≤ a ∧ a ≤ terminalIn + 1 := by
  cases h with
  | pushed | popped => cases he
  | printed | typed =>
    refine ⟨rfl, fun a ha => ?_⟩
    obtain rfl | rfl := byte_putWord_ne ha <;> decide

theorem Plays.of_devices (h : Plays es m sp m' sp') (hes : ∀ e ∈ es, e.isDevice = true) :
    sp' = sp ∧ ∀ a, m'.byte a ≠ m.byte a → terminalOut ≤ a ∧ a ≤ terminalIn + 1 := by
  induction h with
  | nil => exact ⟨rfl, fun a ha => absurd rfl ha⟩
  | @cons e es m m1 m' sp sp1 sp' he _ ih =>
    obtain ⟨hsp, hfirst⟩ := he.of_device (hes e List.mem_cons_self)
    obtain ⟨hsp', hrest⟩ := ih fun e he => hes e (List.mem_cons_of_mem _ he)
    refine ⟨hsp'.trans hsp, fun a ha => ?_⟩
    by_cases hput : m1.byte a = m.byte a
    · exact hrest a (hput ▸ ha)
    · exact hfirst a hput

end Plays

/-! ### Instructions -/

namespace Cpu

variable {c c' c1 c2 : Cpu} {u : Unit} {t : Retired} {v w : UInt16}

/-- A push that succeeds has room, which is never at address 0. -/
theorem room_of_push (h : (push v).run c = .ok u c') : c.sp - 2 ≠ 0 := by
  have hroom := (exists_push_iff v c).mp ⟨c', h⟩
  intro hzero
  rw [hzero] at hroom
  exact Nat.not_lt_zero _ hroom

theorem plays_push (h : (push v).run c = .ok u c') :
    Plays [.pushed (c.sp - 2) v] c.memory c.sp c'.memory c'.sp := by
  rw [ok_of_push h, memory_stacked, sp_stacked]
  exact (StackEvent.Plays.pushed c.memory v (room_of_push h)).alone

theorem plays_push_push (h : (push v).run c = .ok u c1) (h' : (push w).run c1 = .ok u c2) :
    Plays [.pushed (c.sp - 2) v, .pushed (c.sp - 2 - 2) w] c.memory c.sp c2.memory c2.sp := by
  have hsp : c1.sp = c.sp - 2 := by rw [ok_of_push h, sp_stacked]
  have hsecond := plays_push h'
  rw [hsp] at hsecond
  have hfirst := plays_push h
  rw [hsp] at hfirst
  exact hfirst.append hsecond

theorem plays_interrupt (h : interrupt.run (c.past 1) = .ok () c') :
    ∃ sp, Plays [.pushed (c.sp - 2) (c.pc + 2), .pushed (c.sp - 2 - 2) c.psw]
      c.memory c.sp c'.memory sp := by
  obtain ⟨c1, c2, handler, hfirst, hsecond, rfl⟩ := pushes_of_interrupt h
  have hplays := plays_push_push hfirst hsecond
  rw [sp_past, memory_past] at hplays
  rw [memory_setReg]
  exact ⟨_, hplays⟩

theorem plays_checkInterrupts {line : Line} (h : checkInterrupts.run c = .ok (some line) c') :
    Plays [.pushed (c.sp - 2) c.pc, .pushed (c.sp - 2 - 2) c.psw] c.memory c.sp c'.memory c'.sp := by
  obtain ⟨-, c1, c2, hfirst, hsecond, rfl⟩ := pushes_of_checkInterrupts h
  have hsp : (c2.entered line).sp = c2.sp := reg_entered (by decide) (by decide) line c2
  rw [memory_entered, hsp]
  exact plays_push_push hfirst hsecond

theorem same_of_decode {o : Decoded} (h : decode.run (c.past 1) = .ok o c1) :
    c1.memory = c.memory ∧ c1.sp = c.sp := by
  obtain ⟨-, -, rfl⟩ := run_decode_eq_ok_iff.mp h
  rw [memory_past, memory_past, sp_past, sp_past]
  exact ⟨rfl, rfl⟩

theorem plays_call (h : call.run (c.past 1) = .ok () c') :
    ∃ o c1 sp, decode.run (c.past 1) = .ok o c1 ∧
      Plays [.pushed (c.sp - 2) c1.pc] c.memory c.sp c'.memory sp := by
  obtain ⟨o, c1, c2, t, hdecode, hpush, -, rfl⟩ := run_call_eq_ok_iff.mp h
  obtain ⟨hmemory, hsp⟩ := same_of_decode hdecode
  have hplays := plays_push hpush
  rw [hmemory, hsp] at hplays
  refine ⟨o, c1, c2.sp, hdecode, ?_⟩
  rwa [memory_setReg, memory_settled]

theorem eq_contents_of_operand {i : UInt8} (h : (operand i).run c = .ok v c') :
    v = c.contents i ∧ c' = c := by
  obtain ⟨r, hr, rfl, rfl⟩ := ok_of_operand h
  rw [contents, hr]
  exact ⟨rfl, rfl⟩

theorem contents_of_setOperand {i : UInt8} (h : (setOperand i v).run c = .ok () c') :
    c'.contents i = v := by
  obtain ⟨r, c1, hnamed, hmodify⟩ := ok_of_run_bind h
  cases hmodify
  obtain ⟨hr, rfl⟩ := ok_of_named hnamed
  rw [contents, hr]
  exact (reg_setReg _ r r v).trans (if_pos rfl)

/-- A store with the operand bytes of a push puts the register on the stack. -/
theorem plays_storeOp (h : storeOp.run (c.past 1) = .ok () c') :
    ∃ o c1, decode.run (c.past 1) = .ok o c1 ∧ (isPush o = true → ∃ sp,
      Plays [.pushed (c.sp - 2) (c1.contents o.descriptor.dst)] c.memory c.sp c'.memory sp) := by
  obtain ⟨o, c1, hdecode, h⟩ := ok_of_run_bind h
  refine ⟨o, c1, hdecode, fun ho => ?_⟩
  obtain ⟨hmemory, hsp⟩ := same_of_decode hdecode
  obtain ⟨v, c2, hoperand, h⟩ := ok_of_run_bind h
  obtain ⟨rfl, rfl⟩ := eq_contents_of_operand hoperand
  rw [if_pos ho] at h
  have hplays := plays_push h
  rw [hmemory, hsp] at hplays
  exact ⟨_, hplays⟩

/-- A load with the operand bytes of a pop brings the word into the register. -/
theorem popped_of_loadOp (h : loadOp.run (c.past 1) = .ok () c') :
    ∃ o c1, decode.run (c.past 1) = .ok o c1 ∧
      (isPop o = true → c'.contents o.descriptor.dst = c.memory.word c.sp) := by
  obtain ⟨o, c1, hdecode, h⟩ := ok_of_run_bind h
  refine ⟨o, c1, hdecode, fun ho => ?_⟩
  obtain ⟨hmemory, hsp⟩ := same_of_decode hdecode
  simp only [if_pos ho] at h
  obtain ⟨v, c2, hpop, h⟩ := ok_of_run_bind h
  cases hpop
  rw [contents_of_setOperand h, hmemory, hsp]

theorem popped_of_ret (h : (execute .ret).run (c.past 1) = .ok () c') :
    c'.pc = c.memory.word c.sp := by
  obtain ⟨v, c1, hpop, hmodify⟩ := ok_of_run_bind h
  cases hpop
  cases hmodify
  rw [pc_setReg_pc, memory_past, sp_past]

/-- An `IRET` brings the word on top of the stack into the status word and the one below it into the
program counter. -/
theorem popped_of_iret (h : (execute .iret).run (c.past 1) = .ok () c') :
    c'.psw = c.memory.word c.sp ∧ c'.pc = c.memory.word (c.sp + 2) := by
  obtain ⟨psw, c1, hpop, h⟩ := ok_of_run_bind h
  cases hpop
  obtain ⟨_, c2, hmodify, h⟩ := ok_of_run_bind h
  cases hmodify
  obtain ⟨pc, c3, hpop, hmodify⟩ := ok_of_run_bind h
  cases hpop
  cases hmodify
  have hsp : ∀ v w, (((c.past 1).setReg .sp v).setReg .psw w).sp = v := fun v w =>
    (reg_setReg _ .psw .sp w).trans ((if_neg (by decide)).trans
      ((reg_setReg _ .sp .sp v).trans (if_pos rfl)))
  constructor
  · show (c.past 1).memory.word (c.past 1).sp = _
    rw [memory_past, sp_past]
  · rw [pc_setReg_pc, hsp, memory_setReg, memory_setReg, memory_past, sp_past]

theorem Disciplined.memory_eq (hd : c.Disciplined c')
    (h : ∀ e ∈ c.traffic c', ∃ slot value, e = .popped slot value) : c'.memory = c.memory := by
  refine hd.memory fun slot value hmem => ?_
  obtain ⟨_, _, he⟩ := h _ hmem
  cases he

/-- **What a disciplined instruction does** to the memory and the stack pointer is told by its record. -/
theorem plays_traffic (h : step.run c = .ok t c') (hd : c.Disciplined c') :
    Plays (c.traffic c') c.memory c.sp c'.memory c'.sp := by
  -- The stack pointer follows from the record, so only the memory is left to each operation.
  suffices hplays : ∃ sp, Plays (c.traffic c') c.memory c.sp c'.memory sp by
    obtain ⟨sp, hplays⟩ := hplays
    rw [hd.sp, ← hplays.sp_eq]
    exact hplays
  obtain ⟨-, hop, hrun⟩ := ok_of_step h
  -- Operations that push nothing keep the memory since they are disciplined.
  have hpops := hd.memory_eq
  unfold traffic at hpops ⊢
  rw [hop] at hpops ⊢
  cases htop : t.opcode with
  | int =>
    rw [htop] at hrun
    exact plays_interrupt hrun
  | iret =>
    rw [htop] at hrun hpops
    obtain ⟨hpsw, hpc⟩ := popped_of_iret hrun
    rw [hpops (by simp), hpsw, hpc]
    exact ⟨_, .cons (.popped _ _) (.cons (.popped _ _) (.nil _ _))⟩
  | ret =>
    rw [htop] at hrun hpops
    rw [hpops (by simp), popped_of_ret hrun]
    exact ⟨_, .cons (.popped _ _) (.nil _ _)⟩
  | call =>
    rw [htop] at hrun
    obtain ⟨o, c1, sp, hdecode, hplays⟩ := plays_call hrun
    simp only [hdecode]
    exact ⟨sp, hplays⟩
  | ldr =>
    rw [htop] at hrun hpops
    obtain ⟨o, c1, hdecode, hpop⟩ := popped_of_loadOp hrun
    simp only [hdecode] at hpops ⊢
    split
    · rename_i ho
      rw [if_pos ho] at hpops
      rw [hpops (by simp), hpop ho]
      exact ⟨_, .cons (.popped _ _) (.nil _ _)⟩
    · rename_i ho
      rw [if_neg ho] at hpops
      rw [hpops (by simp)]
      exact ⟨_, .nil _ _⟩
  | str =>
    rw [htop] at hrun hpops
    obtain ⟨o, c1, hdecode, hpush⟩ := plays_storeOp hrun
    simp only [hdecode] at hpops ⊢
    split
    · rename_i ho
      exact hpush ho
    · rename_i ho
      rw [if_neg ho] at hpops
      rw [hpops (by simp)]
      exact ⟨_, .nil _ _⟩
  | _ =>
    rw [htop] at hpops
    rw [hpops (by simp)]
    exact ⟨_, .nil _ _⟩

theorem plays_entryTraffic {line : Option Line} (h : checkInterrupts.run c = .ok line c') :
    Plays c.entryTraffic c.memory c.sp c'.memory c'.sp := by
  unfold entryTraffic
  rw [h]
  cases line with
  | some line => exact plays_checkInterrupts h
  | none =>
    rw [(ok_none_of_checkInterrupts h).1]
    exact .nil _ _

/-! ### Pushes and pops as they are written -/

theorem traffic_push {r : Register} (h : Ahead (Instruction.mk .push (.one r)).encode.bytes c)
    (c' : Cpu) : c.traffic c' = [.pushed (c.sp - 2) ((c.past 3).reg r)] := by
  have hop : Opcode.ofCode? (c.memory.byte c.pc) = some .str := by
    rw [h.byte]
    rfl
  unfold traffic
  rw [hop]
  simp only [run_decode_stack h.tail]
  rw [past_past, contents, Register.ofIndex?_index]
  rfl

theorem step_push {r : Register} (h : Ahead (Instruction.mk .push (.one r)).encode.bytes c)
    (hroom : c.top < (c.sp - 2).toNat) :
    step.run c = .ok ⟨c.pc, .str⟩ ((c.past 3).stacked ((c.past 3).reg r)) := by
  have hpushed : (c.past 3).pushed ((c.past 3).reg r) =
      .ok ((c.past 3).stacked ((c.past 3).reg r)) := by
    unfold pushed
    rw [sp_past, show (c.past 3).top = c.top from rfl, if_neg (Nat.not_le.mpr hroom)]
    rw [← sp_past c 3]
    rfl
  have hdoes := does_storeOp_push (c := c.past 1) h.tail
  rw [past_past, hpushed] at hdoes
  exact step_of_does_ok h hdoes

theorem traffic_pop {r : Register} (h : Ahead (Instruction.mk .pop (.one r)).encode.bytes c)
    (c' : Cpu) : c.traffic c' = [.popped c.sp (c'.reg r)] := by
  have hop : Opcode.ofCode? (c.memory.byte c.pc) = some .ldr := by
    rw [h.byte]
    rfl
  unfold traffic
  rw [hop]
  simp only [run_decode_stack h.tail]
  rw [contents, Register.ofIndex?_index]
  rfl

theorem step_pop {r : Register} (h : Ahead (Instruction.mk .pop (.one r)).encode.bytes c) :
    step.run c = .ok ⟨c.pc, .ldr⟩ ((c.past 3).popped.setReg r (c.memory.word c.sp)) := by
  have hdoes := does_loadOp_pop (c := c.past 1) h.tail
  rw [past_past, stackTop, memory_past, sp_past] at hdoes
  exact step_of_does_ok h hdoes

end Cpu

/-! ### Hooks -/

namespace Hook

variable {c c' : Cpu}

theorem plays_readIn (t : Terminal) (c : Cpu) :
    Plays (t.input.head?.map .typed).toList c.memory c.sp (t.readIn c).2.memory (t.readIn c).2.sp := by
  unfold Terminal.readIn
  split
  · rename_i hinput
    rw [hinput]
    exact .nil _ _
  · rename_i b rest hinput
    rw [hinput]
    exact .cons (.typed _ _ b) (.nil _ _)

/-- What a hook does to memory is told by its record; the stack pointer stays. -/
theorem plays_after (now time : Nat) (r : Retired) (c : Cpu) (hook : Hook) :
    Plays (hook.traffic c) c.memory c.sp (hook.after now time r c).2.1.memory
      (hook.after now time r c).2.1.sp := by
  cases hook with
  | terminal t =>
    show Plays _ c.memory c.sp (t.after c).2.1.memory (t.after c).2.1.sp
    cases hrefusal : (t.after c).2.2.2 with
    | some cause =>
      rw [Terminal.cpu_of_refused hrefusal, traffic, hrefusal]
      exact .nil _ _
    | none =>
      rw [Terminal.cpu_of_accepted hrefusal, traffic, hrefusal]
      simp only [Option.isSome_none, Bool.false_eq_true, if_false]
      by_cases hzero : c.memory.word terminalOut = 0
      · simp only [if_pos hzero]
        exact plays_readIn t c
      · simp only [if_neg hzero]
        exact .cons (.printed _ _) (plays_readIn t (c.putWord terminalOut 0))
  | timer t =>
    simp only [after, Timer.after]
    split <;> exact .nil _ _
  | script s =>
    simp only [after, Script.after]
    split <;> exact .nil _ _
  | dump _ | trace => exact .nil _ _

/-- **A hook** keeps the stack pointer and changes bytes of the terminal's two words alone. -/
theorem spares_after (now time : Nat) (r : Retired) (c : Cpu) (hook : Hook) :
    (hook.after now time r c).2.1.sp = c.sp ∧
      ∀ a, (hook.after now time r c).2.1.memory.byte a ≠ c.memory.byte a →
        terminalOut ≤ a ∧ a ≤ terminalIn + 1 := by
  refine (hook.plays_after now time r c).of_devices fun e he => ?_
  cases hook with
  | terminal t =>
    rw [traffic] at he
    split at he
    · cases he
    obtain he | he := List.mem_append.mp he
    · split at he
      · cases he
      · rw [List.mem_singleton.mp he]
        rfl
    · obtain ⟨b, -, rfl⟩ := Option.map_eq_some_iff.mp (Option.mem_toList.mp he)
      rfl
  | timer _ | script _ | dump _ | trace => cases he

/-- What hooks do to memory is told by their record. -/
theorem plays_afterAll (now time : Nat) (r : Retired) (hooks : List Hook) (c : Cpu) :
    Plays (trafficAll now time r c hooks) c.memory c.sp (afterAll now time r c hooks).2.1.memory
      (afterAll now time r c hooks).2.1.sp := by
  induction hooks generalizing c with
  | nil => exact .nil _ _
  | cons hook hooks ih =>
    rw [trafficAll]
    refine (hook.plays_after now time r c).append ?_
    cases hrefusal : (hook.after now time r c).2.2.2 with
    | some cause =>
      rw [afterAll_cons_of_some now time r hrefusal]
      exact .nil _ _
    | none =>
      rw [afterAll_cons_of_none now time r hrefusal]
      exact ih _

end Hook

/-! ### Runs -/

namespace Session

/-- What a cycle of a run does is told by its record, up to an error. -/
theorem plays_cycle {s : Session} (hd : ∀ r c, Cpu.step.run s.cpu = .ok r c → s.cpu.Disciplined c)
    (now time : Nat) :
    match s.cycle now time with
    | .running s' | .halted s' =>
      Plays (s.cycleTraffic now time) s.cpu.memory s.cpu.sp s'.cpu.memory s'.cpu.sp
    | .faulty _ _ => ∃ m sp, Plays (s.cycleTraffic now time) s.cpu.memory s.cpu.sp m sp := by
  unfold cycle cycleTraffic
  cases hstep : Cpu.step.run s.cpu with
  | error f c =>
    rw [show Cpu.step s.cpu = .error f c from hstep]
    exact ⟨_, _, .nil _ _⟩
  | ok r c =>
    rw [show Cpu.step s.cpu = .ok r c from hstep]
    have hplays := Cpu.plays_traffic hstep (hd r c hstep)
    by_cases hhalted : c.halted = true
    · simp only [if_pos hhalted, List.append_nil]
      exact hplays
    · simp only [if_neg hhalted]
      have hhooks := Hook.plays_afterAll now time r s.hooks c
      generalize Hook.afterAll now time r c s.hooks = all at hhooks ⊢
      obtain ⟨hooks, c1, printed, _ | cause⟩ := all
      · simp only [Option.isSome_none, Bool.false_eq_true, if_false]
        cases hcheck : Cpu.checkInterrupts.run c1 with
        | error f c2 =>
          rw [show Cpu.checkInterrupts c1 = .error f c2 from hcheck]
          have hnone : c1.entryTraffic = [] := by rw [Cpu.entryTraffic, hcheck]
          rw [hnone, List.append_nil]
          exact ⟨_, _, hplays.append hhooks⟩
        | ok line c2 =>
          rw [show Cpu.checkInterrupts c1 = .ok line c2 from hcheck]
          exact hplays.append (hhooks.append (Cpu.plays_entryTraffic hcheck))
      · simp only [Option.isSome_some, if_true, List.append_nil]
        exact ⟨_, _, hplays.append hhooks⟩

theorem traffic_of_running {clock : Nat → Nat} {left time : Nat} {s s' : Session}
    (h : s.cycle (clock time) time = .running s') : s.traffic clock (left + 1) time =
      s.cycleTraffic (clock time) time ++ s'.traffic clock left (time + 1) := by
  rw [traffic, h]

/-- **What a disciplined run does** to the memory and the stack pointer is told by its record, up to an
error. -/
theorem plays_steps {clock : Nat → Nat} {left time : Nat} {s : Session}
    (hd : s.Disciplined clock left time) :
    ∃ m sp, Plays (s.traffic clock left time) s.cpu.memory s.cpu.sp m sp ∧
      let ended := s.steps clock left time
      (ended.fault = none → m = ended.session.cpu.memory ∧ sp = ended.session.cpu.sp) := by
  induction left generalizing time s with
  | zero => exact ⟨_, _, .nil _ _, fun _ => ⟨rfl, rfl⟩⟩
  | succ left ih =>
    obtain ⟨hstep, hrest⟩ := hd
    have hcycle := plays_cycle hstep (clock time) time
    cases hresult : s.cycle (clock time) time with
    | running s' =>
      rw [hresult] at hcycle
      obtain ⟨m, sp, hplays, hend⟩ := ih (hrest s' hresult)
      rw [traffic_of_running hresult, steps, hresult]
      exact ⟨m, sp, hcycle.append hplays, hend⟩
    | halted s' =>
      rw [hresult] at hcycle
      rw [traffic, steps, hresult, List.append_nil]
      exact ⟨_, _, hcycle, fun _ => ⟨rfl, rfl⟩⟩
    | faulty f s' =>
      rw [hresult] at hcycle
      obtain ⟨m, sp, hplays⟩ := hcycle
      rw [traffic, steps, hresult, List.append_nil]
      exact ⟨m, sp, hplays, fun hnone => by cases hnone⟩

end Session
end Sx16
