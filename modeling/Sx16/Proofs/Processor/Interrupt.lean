/-
# Interrupts and their return

A taken interrupt and the instruction `INT` put the program counter and then the status word on the
stack and go on at a handler. `IRET` takes both off again. If a handler leaves the stack pointer and the
four bytes as it found them, its `IRET` brings back program counter, status word and stack pointer, and
changes nothing else. The stack pointer may have any value: the four addresses below it are different
even where they wrap.

Key definitions: `Cpu.framed`, `Cpu.Interrupted`.
Key theorems: `Cpu.ok_of_checkInterrupts`, `Cpu.step_iret`, `Cpu.iret_returns`.
-/
import Sx16.Proofs.Processor.Executed
import Sx16.Proofs.Processor.Stack
import Sx16.Proofs.Sequence

namespace Sx16

open Exec

theorem Register.exists_slot (i : Fin 8) : ∃ r ∈ all, r.slot? = some i := by
  revert i
  decide

namespace Cpu

variable {c c' s s' s1 : Cpu} {p v w : UInt16} {line : Line}

/-- States with the same registers that agree in everything else are the same. -/
theorem ext_reg (hreg : ∀ r, c.reg r = c'.reg r) (hmemory : c.memory = c'.memory)
    (hpending : c.pending = c'.pending) (htop : c.top = c'.top) (hhalted : c.halted = c'.halted) :
    c = c' := by
  have hregisters : c.registers = c'.registers := by
    apply Vector.ext
    intro i hi
    obtain ⟨r, -, hr⟩ := Register.exists_slot ⟨i, hi⟩
    have := hreg r
    unfold reg at this
    rw [hr] at this
    exact this
  have hpsw : c.psw = c'.psw := hreg .psw
  cases c
  cases c'
  simp only [mk.injEq]
  exact ⟨hmemory, hregisters, hpsw, hpending, htop, hhalted⟩

/-! ### What an interrupt leaves on the stack -/

/-- The state with a return address and the status word on the stack. -/
def framed (c : Cpu) (p : UInt16) : Cpu := (c.stacked p).stacked c.psw

theorem sp_framed (c : Cpu) (p : UInt16) : (c.framed p).sp = c.sp - 4 := by
  rw [framed, sp_stacked, sp_stacked]
  grind

theorem stackTop_framed (c : Cpu) (p : UInt16) : (c.framed p).stackTop = c.psw :=
  stackTop_stacked _ _

theorem word_framed (c : Cpu) (p : UInt16) : (c.framed p).memory.word (c.sp - 4 + 2) = p := by
  have hsp : c.sp - 4 + 2 = (c.stacked p).sp := by
    rw [sp_stacked]
    grind
  rw [hsp, framed, word_stacked_above, stackTop_stacked]

theorem byte_framed {a : UInt16} (h : ∀ k < 4, a ≠ c.sp - 4 + UInt16.ofNat k) (p : UInt16) :
    (c.framed p).memory.byte a = c.memory.byte a := by
  have h0 : a ≠ c.sp - 4 + 0 := h 0 (by decide)
  have h1 : a ≠ c.sp - 4 + 1 := h 1 (by decide)
  have h2 : a ≠ c.sp - 4 + 2 := h 2 (by decide)
  have h3 : a ≠ c.sp - 4 + 3 := h 3 (by decide)
  have hinner : c.sp - 2 + 1 ≠ a ∧ c.sp - 2 ≠ a := by grind
  have houter : c.sp - 2 - 2 + 1 ≠ a ∧ c.sp - 2 - 2 ≠ a := by grind
  rw [framed, byte_stacked, sp_stacked, if_neg houter.1, if_neg houter.2, byte_stacked, if_neg hinner.1,
    if_neg hinner.2]

theorem reg_framed {r : Register} (hr : r ≠ .sp) (c : Cpu) (p : UInt16) :
    (c.framed p).reg r = c.reg r := by
  rw [framed, reg_stacked hr, reg_stacked hr]

/-! ### Entering a handler -/

theorem pc_entered (line : Line) (c : Cpu) : (c.entered line).pc = c.memory.word (vector line) :=
  reg_setReg _ .pc .pc _

theorem reg_entered {r : Register} (hpc : r ≠ .pc) (hpsw : r ≠ .psw) (line : Line) (c : Cpu) :
    (c.entered line).reg r = c.reg r :=
  (reg_setReg _ .pc r _).trans ((if_neg hpc.symm).trans
    ((reg_setReg c .psw r _).trans (if_neg hpsw.symm)))

theorem psw_of_push {u : Unit} (h : (push v).run c = .ok u c') : c'.psw = c.psw := by
  rw [ok_of_push h]
  rfl

/-- A taken interrupt was the lowest that could be taken, and both its pushes have succeeded. -/
theorem pushes_of_checkInterrupts (h : checkInterrupts.run c = .ok (some line) c') :
    c.eligible? = some line ∧ ∃ c1 c2, (push c.pc).run c = .ok () c1 ∧
      (push c.psw).run c1 = .ok () c2 ∧ c' = c2.entered line := by
  obtain ⟨_, _, hget, h⟩ := ok_of_run_bind h
  cases hget
  split at h
  · cases h
  · rename_i line' heligible
    obtain ⟨_, c3, henter, hpure⟩ := ok_of_run_bind h
    cases hpure
    rw [enter_eq] at henter
    obtain ⟨_, _, hget, henter⟩ := ok_of_run_bind henter
    cases hget
    obtain ⟨_, c1, hfirst, henter⟩ := ok_of_run_bind henter
    obtain ⟨_, _, hget, henter⟩ := ok_of_run_bind henter
    cases hget
    obtain ⟨_, c2, hsecond, hmodify⟩ := ok_of_run_bind henter
    cases hmodify
    rw [psw_of_push hfirst] at hsecond
    exact ⟨heligible, c1, c2, hfirst, hsecond, rfl⟩

theorem ok_of_checkInterrupts (h : checkInterrupts.run c = .ok (some line) c') :
    c.eligible? = some line ∧ c' = (c.framed c.pc).entered line := by
  obtain ⟨heligible, c1, c2, hfirst, hsecond, rfl⟩ := pushes_of_checkInterrupts h
  rw [ok_of_push hsecond, ok_of_push hfirst]
  exact ⟨heligible, rfl⟩

/-- An interrupt that can be taken is taken if there is room for the frame above the image. -/
theorem run_checkInterrupts_of_room (h : c.eligible? = some line) (hfirst : c.top < (c.sp - 2).toNat)
    (hsecond : c.top < (c.sp - 4).toNat) :
    checkInterrupts.run c = .ok (some line) ((c.framed c.pc).entered line) := by
  have hpush : (push c.pc).run c = .ok () (c.stacked c.pc) := by
    rw [run_push_eq, if_neg (Nat.not_le.mpr hfirst)]
  have hsp : (c.stacked c.pc).sp - 2 = c.sp - 4 := by
    rw [sp_stacked]
    grind
  have hpush' : (push c.psw).run (c.stacked c.pc) = .ok () (c.framed c.pc) := by
    rw [run_push_eq, hsp, show (c.stacked c.pc).top = c.top from rfl, if_neg (Nat.not_le.mpr hsecond)]
    rfl
  have henter : (enter line).run c = .ok () ((c.framed c.pc).entered line) := by
    rw [enter_eq, EStateM.run_bind, EStateM.run_get]
    simp only
    rw [EStateM.run_bind, hpush]
    simp only
    rw [EStateM.run_bind, EStateM.run_get]
    simp only
    rw [EStateM.run_bind, show (c.stacked c.pc).psw = c.psw from rfl, hpush']
    rfl
  rw [checkInterrupts, EStateM.run_bind, EStateM.run_get]
  simp only
  rw [h]
  simp only
  rw [EStateM.run_bind, henter]
  rfl

/-- An `INT` that succeeds has pushed the address behind its two bytes and the status word. -/
theorem pushes_of_interrupt (h : interrupt.run (c.past 1) = .ok () c') :
    ∃ c1 c2 handler, (push (c.pc + 2)).run (c.past 2) = .ok () c1 ∧
      (push c.psw).run c1 = .ok () c2 ∧ c' = c2.setReg .pc handler := by
  obtain ⟨d, c1, hdescriptor, h⟩ := ok_of_run_bind h
  obtain ⟨b, c1', hfetch, hpure⟩ := ok_of_run_bind hdescriptor
  cases hpure
  obtain ⟨-, rfl⟩ := ok_of_fetch hfetch
  obtain ⟨n, c2, hoperand, h⟩ := ok_of_run_bind h
  have hsame : c2 = c.past 2 :=
    (endState_of_ok hoperand).symm.trans ((@keeps_operand Cpu id _ _).trans (past_past c 1 1))
  subst hsame
  obtain ⟨_, _, hget, h⟩ := ok_of_run_bind h
  cases hget
  obtain ⟨_, c3, hfirst, h⟩ := ok_of_run_bind h
  obtain ⟨_, _, hget, h⟩ := ok_of_run_bind h
  cases hget
  obtain ⟨_, c4, hsecond, hmodify⟩ := ok_of_run_bind h
  cases hmodify
  rw [show (c.past 2).pc = c.pc + 2 from pc_past c 2] at hfirst
  rw [psw_of_push hfirst] at hsecond
  exact ⟨c3, c4, _, hfirst, hsecond, rfl⟩

theorem ok_of_interrupt (h : interrupt.run (c.past 1) = .ok () c') :
    ∃ handler, c' = ((c.past 2).framed (c.pc + 2)).setReg .pc handler := by
  obtain ⟨c1, c2, handler, hfirst, hsecond, rfl⟩ := pushes_of_interrupt h
  rw [ok_of_push hsecond, ok_of_push hfirst]
  exact ⟨handler, rfl⟩

/-- The ways in which a handler is entered, with the address to which it returns: a requested interrupt
is taken, or `INT` is executed. -/
inductive Interrupted (s : Cpu) : UInt16 → Cpu → Prop where
  | taken {line : Line} {s1 : Cpu} (h : checkInterrupts.run s = .ok (some line) s1) :
    Interrupted s s.pc s1
  | called {t : Retired} {s1 : Cpu} (h : step.run s = .ok t s1) (ht : t.opcode = .int) :
    Interrupted s (s.pc + 2) s1

/-- What a handler finds: the stack pointer moved by two words, with the status word on top and the
return address below. -/
theorem Interrupted.frame (h : Interrupted s p s1) :
    s1.sp = s.sp - 4 ∧ s1.memory.word s1.sp = s.psw ∧ s1.memory.word (s1.sp + 2) = p := by
  cases h with
  | @taken line _ h =>
    obtain ⟨-, rfl⟩ := ok_of_checkInterrupts h
    have hsp : ((s.framed s.pc).entered line).sp = s.sp - 4 :=
      (reg_entered (by decide) (by decide) _ _).trans (sp_framed s s.pc)
    rw [hsp, memory_entered, word_framed, ← sp_framed s s.pc]
    exact ⟨rfl, stackTop_framed s s.pc, rfl⟩
  | called h ht =>
    obtain ⟨-, -, hrun⟩ := ok_of_step h
    rw [ht] at hrun
    obtain ⟨handler, rfl⟩ := ok_of_interrupt hrun
    have hback : (s.past 2).sp = s.sp := (reg_setReg s .pc .sp _).trans (if_neg (by decide))
    have hsp : (((s.past 2).framed (s.pc + 2)).setReg .pc handler).sp = s.sp - 4 := by
      rw [← hback, ← sp_framed _ (s.pc + 2)]
      exact (reg_setReg _ .pc .sp _).trans (if_neg (by decide))
    rw [hsp, memory_setReg, ← hback, word_framed, ← sp_framed _ (s.pc + 2)]
    exact ⟨rfl, stackTop_framed _ _, rfl⟩

/-! ### Returning -/

/-- **A step with `IRET`** takes the status word and the program counter off the stack. -/
theorem step_iret (hpc : c.pc ≠ 0xFFFF) (hop : c.memory.byte c.pc = Opcode.iret.code) :
    step.run c = .ok ⟨c.pc, .iret⟩ (((c.setReg .sp (c.sp + 4)).setReg .psw c.stackTop).setReg .pc
      (c.memory.word (c.sp + 2))) := by
  have hnext : (c.past 1).pc ≠ 0 := by
    rw [pc_past]
    show c.pc + 1 ≠ 0
    grind
  have hrun : (execute .iret).run (c.past 1) = .ok ()
      (((c.past 1).popped.setReg .psw (c.past 1).stackTop).popped.setReg .pc
        ((c.past 1).popped.setReg .psw (c.past 1).stackTop).stackTop) :=
    @does_alone .iret rfl (c.past 1)
  rw [run_step, if_neg hnext, hop, Opcode.ofCode?_code]
  simp only
  rw [hrun]
  simp only
  congr 1
  have hsp : (c.past 1).sp = c.sp := (reg_setReg c .pc .sp _).trans (if_neg (by decide))
  have htop : (c.past 1).stackTop = c.stackTop := by
    rw [stackTop, hsp, memory_past, stackTop]
  have hsp' : ((c.past 1).popped.setReg .psw (c.past 1).stackTop).sp = c.sp + 2 := by
    rw [← hsp]
    exact (reg_setReg _ .psw .sp _).trans ((if_neg (by decide)).trans
      ((reg_setReg _ .sp .sp _).trans (if_pos rfl)))
  have htop' : ((c.past 1).popped.setReg .psw (c.past 1).stackTop).stackTop =
      c.memory.word (c.sp + 2) := by
    rw [stackTop, hsp', memory_setReg, popped, memory_setReg, memory_past]
  rw [htop', popped, hsp', htop]
  refine ext_reg (fun r => ?_) rfl rfl rfl rfl
  have hfour : c.sp + 2 + 2 = c.sp + 4 := by grind
  cases r <;> simp [reg_setReg, popped, past, hfour]

/-- A handler that only returns: registers and status word are as before, the line is no longer
requested, and memory has changed in the four bytes below the stack pointer alone. -/
theorem step_of_taken (h : checkInterrupts.run s = .ok (some line) s1)
    (hpc : s1.memory.word (vector line) ≠ 0xFFFF)
    (hop : s1.memory.byte (s1.memory.word (vector line)) = Opcode.iret.code) :
    ∃ s2, step.run s1 = .ok ⟨s1.memory.word (vector line), .iret⟩ s2 ∧ (∀ r, s2.reg r = s.reg r) ∧
      s2.pending = (s.dismiss line).pending ∧
      ∀ a, (∀ k < 4, a ≠ s.sp - 4 + UInt16.ofNat k) → s2.memory.byte a = s.memory.byte a := by
  obtain ⟨hsp, hpsw, hreturn⟩ := (Interrupted.taken h).frame
  obtain ⟨-, rfl⟩ := ok_of_checkInterrupts h
  rw [memory_entered, ← pc_entered] at hpc hop ⊢
  refine ⟨_, step_iret hpc hop, fun r => ?_, rfl, fun a ha => ?_⟩
  · rw [hreturn, stackTop, hpsw, hsp, reg_setReg, reg_setReg, reg_setReg]
    have hback : s.sp - 4 + 4 = s.sp := UInt16.sub_add_cancel s.sp 4
    by_cases hr : r = .pc
    · rw [if_pos hr.symm, hr]
      rfl
    by_cases hr' : r = .psw
    · rw [if_neg (Ne.symm hr), if_pos hr'.symm, hr']
      rfl
    by_cases hr'' : r = .sp
    · rw [if_neg (Ne.symm hr), if_neg (Ne.symm hr'), if_pos hr''.symm, hback, hr'']
      rfl
    · rw [if_neg (Ne.symm hr), if_neg (Ne.symm hr'), if_neg (Ne.symm hr''), reg_entered hr hr',
        reg_framed hr'']
  · rw [memory_setReg, memory_setReg, memory_setReg, memory_entered, byte_framed ha]

/-- **Return from an interrupt.** A handler is entered, by a requested interrupt or by `INT`, and
executes `IRET` with the stack pointer and the four pushed bytes as it found them: then the program goes
on at the return address with the status word and the stack pointer of before, and everything else is as
the handler left it. If the handler of a taken interrupt is an `IRET` and nothing else, all registers and
the status word are as before, memory has changed in the four bytes below the stack pointer alone, and
the requests are those of before without the line. -/
theorem iret_returns (h : Interrupted s p s1) :
    (∀ s', s'.sp = s1.sp →
      (∀ k < 4, s'.memory.byte (s1.sp + UInt16.ofNat k) = s1.memory.byte (s1.sp + UInt16.ofNat k)) →
      s'.pc ≠ 0xFFFF → s'.memory.byte s'.pc = Opcode.iret.code →
      step.run s' = .ok ⟨s'.pc, .iret⟩ (((s'.setReg .sp s.sp).setReg .psw s.psw).setReg .pc p)) ∧
    (∀ line, checkInterrupts.run s = .ok (some line) s1 →
      let handler := s1.memory.word (vector line)
      handler ≠ 0xFFFF → s1.memory.byte handler = Opcode.iret.code →
      ∃ s2, step.run s1 = .ok ⟨handler, .iret⟩ s2 ∧ (∀ r, s2.reg r = s.reg r) ∧
        s2.pending = (s.dismiss line).pending ∧
        ∀ a, (∀ k < 4, a ≠ s.sp - 4 + UInt16.ofNat k) → s2.memory.byte a = s.memory.byte a) := by
  obtain ⟨hsp, hpsw, hreturn⟩ := h.frame
  refine ⟨fun s' hsp' hbytes hpc hop => ?_, fun line htaken hpc hop => step_of_taken htaken hpc hop⟩
  have h0 : s'.memory.byte s1.sp = s1.memory.byte s1.sp := by
    have h0 := hbytes 0 (by decide)
    rwa [show s1.sp + UInt16.ofNat 0 = s1.sp from UInt16.add_zero _] at h0
  have h1 : s'.memory.byte (s1.sp + 1) = s1.memory.byte (s1.sp + 1) := hbytes 1 (by decide)
  have h2 : s'.memory.byte (s1.sp + 2) = s1.memory.byte (s1.sp + 2) := hbytes 2 (by decide)
  have h3 : s'.memory.byte (s1.sp + 2 + 1) = s1.memory.byte (s1.sp + 2 + 1) := by
    rw [UInt16.add_assoc]
    exact hbytes 3 (by decide)
  have htop : s'.stackTop = s.psw := by
    rw [← hpsw, stackTop, hsp', Memory.word, Memory.word, h0, h1]
  have hword : s'.memory.word (s'.sp + 2) = p := by
    rw [← hreturn, hsp', Memory.word, Memory.word, h2, h3]
  have hback : s'.sp + 4 = s.sp := by
    rw [hsp', hsp]
    exact UInt16.sub_add_cancel s.sp 4
  rw [step_iret hpc hop, htop, hword, hback]

/-- A processor at address 0x40 with a request of the timer, whose handler at 0x200 is an `IRET`. The
stack pointer is 0, so that the frame lies at the end of memory. -/
def awaitingTimer : Cpu :=
  (((({} : Cpu).setReg .pc 0x40).store (vector Line.timer) [0x00, 0x02]).store 0x200 [0x20]).request
    Line.timer

/-- The timer's handler returns, also when a register has changed in between. -/
theorem iret_returns_timer :
    let s1 := (awaitingTimer.framed 0x40).entered Line.timer
    let s' := s1.setReg .r0 7
    checkInterrupts.run awaitingTimer = .ok (some Line.timer) s1 ∧
    step.run s' = .ok ⟨0x200, .iret⟩ (((s'.setReg .sp 0).setReg .psw 0).setReg .pc 0x40) ∧
    ∃ s2, step.run s1 = .ok ⟨0x200, .iret⟩ s2 ∧ ∀ r, s2.reg r = awaitingTimer.reg r := by
  intro s1 s'
  have htaken : checkInterrupts.run awaitingTimer = .ok (some Line.timer) s1 :=
    run_checkInterrupts_of_room (by decide +kernel) (by decide +kernel) (by decide +kernel)
  have hpc : s'.pc = 0x200 := by decide +kernel
  have hhandler : s1.memory.word (vector Line.timer) = 0x200 := by decide +kernel
  have hop : s1.memory.byte 0x200 = Opcode.iret.code := by decide +kernel
  have hbefore : awaitingTimer.sp = 0 ∧ awaitingTimer.psw = 0 ∧ awaitingTimer.pc = 0x40 := by
    decide +kernel
  obtain ⟨hreturns, honly⟩ := iret_returns (.taken htaken)
  refine ⟨htaken, ?_, ?_⟩
  · have hsp : s'.sp = s1.sp := (reg_setReg s1 .r0 .sp 7).trans (if_neg (by decide))
    have hmemory : s'.memory = s1.memory := memory_setReg s1 .r0 7
    have hstep := hreturns s' hsp (fun _ _ => by rw [hmemory]) (by rw [hpc]; decide)
      (by rw [hpc, hmemory]; exact hop)
    rwa [hpc, hbefore.1, hbefore.2.1, hbefore.2.2] at hstep
  · have hstep := honly Line.timer htaken
    simp only [hhandler] at hstep
    obtain ⟨s2, hstep, hreg, -⟩ := hstep (by decide) hop
    exact ⟨s2, hstep, hreg⟩

end Cpu
end Sx16
