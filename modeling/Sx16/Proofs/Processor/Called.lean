/-
# Calls as jumps

A call goes where a jump with the same operand bytes goes, and leaves the return address on the stack.
But the return address is pushed before the destination is found: a destination that is taken from the
stack pointer, or read from the two bytes just below it, is that of a jump from the state with the
return address on the stack. Apart from the destination the states after the call and after the jump
differ by the push alone.

Key definitions: `Decoded.followed`, `Cpu.Apart`, `Cpu.CallsAs`.
Key theorems: `Cpu.settled_stacked`, `Cpu.aim?_of_push`, `Cpu.exists_call_iff`, `Cpu.call_as_jump`,
`Cpu.call_through_sp`.
-/
import Sx16.Proofs.Processor.Interrupt
import Sx16.Proofs.Processor.Touched

namespace Sx16

open Exec

/-- The registers, by number, whose contents a jump with operand bytes follows. -/
def Decoded.followed (o : Decoded) : List UInt8 :=
  match o.mode with
  | .regDirect | .regIndirect | .regIndirectOffset => [o.descriptor.src]
  | .immediate | .memory | .regDirectAddition => []

namespace Cpu

variable {c c' cc cj : Cpu} {a v w : UInt16} {r : Register} {o : Decoded}

/-- The destination of operand bytes, looked for in the state behind them, depends neither on the stack
pointer nor on the two bytes below it. -/
structure Apart (o : Decoded) (c : Cpu) : Prop where
  register : Register.sp.index ∉ o.followed
  word : ∀ w, c.cell? o = some w → ¬ Below 2 c w ∧ ¬ Below 2 c (w + 1)

/-- How the state after a call relates to the one after a jump, both with the operand bytes that end in
the state `c`. -/
structure CallsAs (o : Decoded) (c cj cc : Cpu) : Prop where
  /-- Apart from the push, all but the program counter is as after the jump. -/
  others : cc = (cj.lowered.putWord (c.sp - 2) c.pc).setReg .pc cc.pc
  /-- The return address is the address behind the operand bytes. -/
  returns : cc.memory.word (c.sp - 2) = c.pc
  /-- It stays on top of the stack unless the operand bytes update the stack pointer. -/
  top : Register.sp.index ∉ o.updated → cc.stackTop = c.pc
  pc : Apart o c → cc.pc = cj.pc
  /-- The contents of the stack pointer are taken after the push. -/
  pointer : o.mode = .regDirect → o.descriptor.src = Register.sp.index → cc.pc = cj.pc - 2
  /-- A destination in memory is read after the push. -/
  cell : ∀ w, (c.stacked c.pc).cell? o = some w → cc.pc = cc.memory.word w

/-! ### The state -/

theorem setReg_comm {r r' : Register} (h : r ≠ r') (c : Cpu) (v w : UInt16) :
    (c.setReg r v).setReg r' w = (c.setReg r' w).setReg r v := by
  refine ext_reg (fun s => ?_) (by simp) (by simp [pending_setReg]) (by simp) (by simp [halted_setReg])
  simp only [reg_setReg]
  by_cases hs : r' = s
  · subst hs
    simp [h]
  · simp [hs]

theorem putWord_setReg (c : Cpu) (a v : UInt16) (r : Register) (w : UInt16) :
    (c.putWord a v).setReg r w = (c.setReg r w).putWord a v := by
  unfold setReg
  cases r.slot? <;> rfl

/-- A register may be stepped before or after the stack pointer moves down, also the stack pointer. -/
theorem moved_lowered (c : Cpu) (r : Register) (delta : Int16) :
    c.lowered.moved r delta = (c.moved r delta).lowered := by
  unfold lowered moved sp
  by_cases hr : r = .sp
  · subst hr
    simp only [setReg_setReg, reg_setReg, if_pos]
    congr 1
    grind
  · rw [setReg_comm hr, reg_setReg, reg_setReg, if_neg hr, if_neg (Ne.symm hr)]

theorem moved_putWord (c : Cpu) (a v : UInt16) (r : Register) (delta : Int16) :
    (c.putWord a v).moved r delta = (c.moved r delta).putWord a v :=
  putWord_setReg c a v r _

/-- The updates around a destination may be made before the push or after it. -/
theorem settled_stacked (c : Cpu) (v : UInt16) (o : Decoded) :
    (c.stacked v).settled o = (c.settled o).lowered.putWord (c.sp - 2) v := by
  obtain h | ⟨r, -, h⟩ := settled_cases o
  · simp only [h, stacked]
  · simp only [h, stacked, moved_putWord, moved_lowered]

theorem lowered_setReg_pc (c : Cpu) (v : UInt16) : (c.setReg .pc v).lowered = c.lowered.setReg .pc v := by
  have hsp : (c.setReg .pc v).sp = c.sp := (reg_setReg c .pc .sp v).trans (if_neg (by decide))
  rw [lowered, lowered, hsp, setReg_comm (by decide)]

/-! ### The destination -/

/-- A word of which no byte is one of the two below the stack pointer is the same after a push. -/
theorem word_of_push {u : Unit} (h : (push v).run c = .ok u c') (hlow : ¬ Below 2 c w)
    (hhigh : ¬ Below 2 c (w + 1)) : c'.memory.word w = c.memory.word w := by
  have hend := endState_of_ok h
  have hbyte : ∀ a, ¬ Below 2 c a → c'.memory.byte a = c.memory.byte a := fun a ha =>
    (congrArg (byteAt a) hend.symm).trans (sparesWhere_push le_rfl v c ha)
  rw [Memory.word, Memory.word, hbyte w hlow, hbyte (w + 1) hhigh]

theorem reg_followed (h : Register.sp.index ∉ o.followed) (ho : o.followed = [o.descriptor.src])
    (hr : Register.ofIndex? o.descriptor.src = some r) (c : Cpu) (v : UInt16) :
    (c.stacked v).reg r = c.reg r := by
  refine reg_stacked (fun hsp => h ?_) c v
  rw [ho, ← hsp, index_of_ofIndex? hr, List.mem_singleton]

theorem cell?_stacked (h : Register.sp.index ∉ o.followed) (c : Cpu) (v : UInt16) :
    (c.stacked v).cell? o = c.cell? o := by
  unfold cell?
  cases hm : o.mode with
  | regIndirect | regIndirectOffset =>
    refine Option.map_congr fun r hr => ?_
    rw [reg_followed h (by simp only [Decoded.followed, hm]) hr]
  | _ => rfl

theorem aim?_of_cell? (h : c.cell? o = some w) : c.aim? o = some (c.memory.word w) := by
  unfold aim?
  rw [h]
  unfold cell? at h
  cases hm : o.mode with
  | immediate | regDirect | regDirectAddition =>
    simp only [hm] at h
    cases h
  | _ => rfl

/-- The destination of operand bytes apart from the stack is the same after a push. -/
theorem aim?_of_push {u : Unit} (h : (push v).run c = .ok u c') (ho : Apart o c) :
    c'.aim? o = c.aim? o := by
  have hword : ∀ w, c.cell? o = some w → c'.memory.word w = c.memory.word w := fun w hw => by
    obtain ⟨hlow, hhigh⟩ := ho.word w hw
    exact word_of_push h hlow hhigh
  obtain rfl := ok_of_push h
  unfold aim?
  cases hm : o.mode with
  | immediate => rfl
  | regDirect =>
    refine Option.map_congr fun r hr => ?_
    exact reg_followed ho.register (by simp only [Decoded.followed, hm]) hr c v
  | regIndirect | regIndirectOffset | memory =>
    simp only
    rw [cell?_stacked ho.register]
    exact Option.map_congr hword
  | regDirectAddition =>
    simp only
    rw [pc, reg_stacked (by decide), ← pc]

/-! ### Calls and jumps -/

/-- With the destinations known, and the state with the return address on the stack. -/
theorem callsAs_of_aims {next pushed : Cpu} {t t' : UInt16} (ht : next.aim? o = some t)
    (hpush : (push next.pc).run next = .ok () pushed) (ht' : pushed.aim? o = some t') :
    CallsAs o next ((next.settled o).setReg .pc t) ((pushed.settled o).setReg .pc t') := by
  have hsettled : pushed.settled o = (next.settled o).lowered.putWord (next.sp - 2) next.pc := by
    rw [ok_of_push hpush, settled_stacked]
  have hmemory : ((pushed.settled o).setReg .pc t').memory = pushed.memory := by
    rw [memory_setReg, memory_settled]
  have hreturns : pushed.memory.word (next.sp - 2) = next.pc := by
    rw [ok_of_push hpush, ← sp_stacked next next.pc]
    exact stackTop_stacked next next.pc
  refine ⟨?_, ?_, fun hsp => ?_, fun hapart => ?_, fun hm hsrc => ?_, fun w hw => ?_⟩
  · rw [pc_setReg_pc, lowered_setReg_pc, putWord_setReg, setReg_setReg, ← putWord_setReg, hsettled]
  · rw [hmemory, hreturns]
  · have hkept : ((pushed.settled o).setReg .pc t').sp = pushed.sp :=
      (reg_setReg _ .pc .sp t').trans ((if_neg (by decide)).trans (reg_settled hsp pushed))
    rw [stackTop, hmemory, hkept, ok_of_push hpush, sp_stacked, ← ok_of_push hpush, hreturns]
  · rw [aim?_of_push hpush hapart, ht] at ht'
    cases ht'
    rw [pc_setReg_pc, pc_setReg_pc]
  · rw [ok_of_push hpush] at ht'
    simp only [aim?, hm, hsrc, Register.ofIndex?_index, Option.map_some, Option.some.injEq] at ht ht'
    rw [pc_setReg_pc, pc_setReg_pc, ← ht, ← ht']
    exact sp_stacked next next.pc
  · rw [← ok_of_push hpush] at hw
    rw [aim?_of_cell? hw] at ht'
    cases ht'
    rw [pc_setReg_pc, hmemory]

/-- Where a jump succeeds, a call fails only if its push does. -/
theorem exists_call_iff (hjump : jumpTaken.run c = .ok () cj) :
    (∃ cc, call.run c = .ok () cc) ↔ c.top < (c.sp - 2).toNat := by
  obtain ⟨o, next, v, hdecode, hv, -⟩ := run_jumpTaken_eq_ok_iff.mp hjump
  have hroom : (∃ pushed, (push next.pc).run next = .ok () pushed) ↔ c.top < (c.sp - 2).toNat := by
    obtain ⟨-, -, rfl⟩ := run_decode_eq_ok_iff.mp hdecode
    rw [exists_push_iff, sp_past, past, top_setReg]
  rw [← hroom]
  constructor
  · rintro ⟨cc, hcall⟩
    obtain ⟨o', next', pushed, v', hdecode', hpush, -, -⟩ := run_call_eq_ok_iff.mp hcall
    cases hdecode.symm.trans hdecode'
    exact ⟨pushed, hpush⟩
  · rintro ⟨pushed, hpush⟩
    have hsome : (pushed.aim? o).isSome = true := by
      rw [isSome_aim?_congr pushed next, hv]
      rfl
    obtain ⟨v', hv'⟩ := Option.isSome_iff_exists.mp hsome
    exact ⟨_, run_call_eq_ok_iff.mpr ⟨o, next, pushed, v', hdecode, hpush, hv', rfl⟩⟩

/-- **A call as a jump with a push.** Where a jump succeeds, a call with the same operand bytes succeeds
just if there is room for the push. It pushes the address behind these bytes as the return address, and
apart from the push and the program counter all is as after the jump. It goes to where the jump goes if
the destination depends neither on the stack pointer nor on the two bytes below it. Else it goes to where
the operand bytes lead in the state with the return address on the stack: to the lowered stack pointer, or
to the word that is in memory then. The return address stays on top of the stack unless the operand bytes
update the stack pointer. -/
theorem call_as_jump (hjump : (execute .jmp).run c = .ok () cj) :
    ((∃ cc, (execute .call).run c = .ok () cc) ↔ c.top < (c.sp - 2).toNat) ∧
    ∃ o next, decode.run c = .ok o next ∧ next = c.past (2 + o.mode.payloadSize) ∧
      ∀ cc, (execute .call).run c = .ok () cc → CallsAs o next cj cc := by
  refine ⟨exists_call_iff hjump, ?_⟩
  obtain ⟨o, next, t, hdecode, ht, rfl⟩ := run_jumpTaken_eq_ok_iff.mp hjump
  obtain ⟨-, -, hnext⟩ := run_decode_eq_ok_iff.mp hdecode
  refine ⟨o, next, hdecode, hnext, fun cc hcall => ?_⟩
  obtain ⟨o', next', pushed, t', hdecode', hpush, ht', rfl⟩ := run_call_eq_ok_iff.mp hcall
  cases hdecode.symm.trans hdecode'
  exact callsAs_of_aims ht hpush ht'

/-- Through a register that is incremented after the access, with the destination apart from the stack. -/
theorem call_as_jump_indirect :
    let c := (((Cpu.holding 0x101 [0xF1, 0x42]).setReg .r1 0x200).setReg .sp 0x400).putWord 0x200 0x1234
    ∃ cj cc, (execute .jmp).run c = .ok () cj ∧ (execute .call).run c = .ok () cc ∧
      cj.pc = 0x1234 ∧ cc.pc = 0x1234 ∧ cc.stackTop = 0x103 := by
  intro c
  have hjump := ok_of_succeeds (show succeeds (execute .jmp) c = true by decide +kernel)
  have hdecode : decode.run c = .ok ⟨⟨15, 1⟩, .regIndirect, .postInc, 0⟩ (c.past 2) :=
    run_decode_eq_ok_iff.mpr ⟨⟨by decide +kernel, by decide +kernel⟩, by decide +kernel, rfl⟩
  obtain ⟨hcalls, o, next, hdecode', -, hcallsAs⟩ := call_as_jump hjump
  cases hdecode.symm.trans hdecode'
  obtain ⟨cc, hcall⟩ := hcalls.mpr (by decide +kernel)
  have hcc := hcallsAs cc hcall
  have hcell : (c.past 2).cell? ⟨⟨15, 1⟩, .regIndirect, .postInc, 0⟩ = some 0x200 := by decide +kernel
  have hapart : Apart ⟨⟨15, 1⟩, .regIndirect, .postInc, 0⟩ (c.past 2) := by
    refine ⟨by decide, fun w hw => ?_⟩
    cases hcell.symm.trans hw
    decide +kernel
  have hpc : (endState (execute .jmp) c).pc = 0x1234 := by decide +kernel
  refine ⟨_, cc, hjump, hcall, hpc, (hcc.pc hapart).trans hpc, ?_⟩
  exact (hcc.top (by decide)).trans (by decide +kernel)

/-- **Calls through the stack pointer** do not go where the jumps go: one to the contents of the stack
pointer goes to where the return address is, and one to the word on top of the stack, which is taken off,
goes to the return address and leaves it below the stack pointer. -/
theorem call_through_sp :
    (let c := (Cpu.holding 0x101 [0xF6, 0x01]).setReg .sp 0x400
      ∃ cj cc, (execute .jmp).run c = .ok () cj ∧ (execute .call).run c = .ok () cc ∧
        cj.pc = 0x400 ∧ cc.pc = 0x3FE) ∧
    (let c := (Cpu.holding 0x101 [0xF6, 0x42]).setReg .sp 0x400
      ∃ cj cc, (execute .jmp).run c = .ok () cj ∧ (execute .call).run c = .ok () cc ∧
        cj.pc = 0 ∧ cc.pc = 0x103 ∧ cc.stackTop = 0) := by
  refine ⟨?_, ?_⟩ <;> intro c
  all_goals
    have hjump := ok_of_succeeds (show succeeds (execute .jmp) c = true by decide +kernel)
    have hcall := ok_of_succeeds (show succeeds (execute .call) c = true by decide +kernel)
    exact ⟨_, _, hjump, hcall, by decide +kernel, by decide +kernel⟩

end Cpu
end Sx16
