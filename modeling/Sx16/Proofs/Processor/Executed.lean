/-
# The processor does what was written

The bytes of an instruction, put ahead of the program counter, are executed as the instruction means.
So encoded instructions have no faults but those of their meaning, and what does not write the program
counter goes on at the next instruction.

Key definitions: `Cpu.Two`.
Key theorems: `Instruction.does_execute`, `step_of_does`, `step_of_encode`.
-/
import Sx16.Proofs.Processor.Encoded

namespace Sx16

namespace Cpu

variable {c : Cpu} {w : UInt16} {r dst src : Register} {m : Mnemonic}

/-! ### Two registers -/

/-- The descriptor of two registers lies ahead. -/
def Two (dst src : Register) (c : Cpu) : Prop :=
  Ahead [(Descriptor.mk dst.index src.index).toByte] c

theorem Two.run_descriptor (h : Two dst src c) :
    descriptor.run c = .ok ⟨dst.index, src.index⟩ (c.past 1) :=
  Cpu.run_descriptor dst.index_lt src.index_lt h

theorem does_operands {k : UInt16 → UInt16 → Exec Unit} {t : Except Fault Cpu}
    (h : Does (k (c.reg dst) (c.reg src)) c t) :
    Does (do
      let d ← operand dst.index
      let s ← operand src.index
      k d s) c t :=
  Does.bind (run_operand dst c) (Does.bind (run_operand src c) h)

theorem does_combine (f : UInt16 → UInt16 → UInt16) (h : Two dst src c) :
    Does (combine f) c
      (.ok ((c.past 1).setReg dst (f ((c.past 1).reg dst) ((c.past 1).reg src)))) := by
  refine Does.bind h.run_descriptor (does_operands ?_)
  exact run_setOperand dst _ _

theorem does_exchange (h : Two dst src c) :
    Does exchange c (.ok (((c.past 1).setReg dst ((c.past 1).reg src)).setReg src
      ((c.past 1).reg dst))) := by
  refine Does.bind h.run_descriptor (does_operands ?_)
  exact Does.bind (run_setOperand dst _ _) (run_setOperand src _ _)

theorem does_divide (h : Two dst src c) :
    Does divide c (Mnemonic.div.withTwo (c.past 1) dst src) := by
  refine Does.bind h.run_descriptor (does_operands ?_)
  by_cases hzero : (c.past 1).reg src = 0
  · simp only [Mnemonic.withTwo, if_pos hzero]
    exact ⟨_, rfl⟩
  · simp only [Mnemonic.withTwo, if_neg hzero]
    exact run_setOperand dst _ _

theorem does_shift (f : UInt16 → UInt16 → UInt16 × Bool) (h : Two dst src c) :
    Does (shift f) c ((c.past 1).shifted dst ((c.past 1).reg src)
      (f ((c.past 1).reg dst) ((c.past 1).reg src))) := by
  refine Does.bind h.run_descriptor (does_operands ?_)
  by_cases hneg : isNegative ((c.past 1).reg src) = true
  · simp only [shifted, if_pos hneg]
    exact ⟨_, rfl⟩
  · simp only [shifted, if_neg hneg]
    exact Does.bind (run_setOperand dst _ _) (EStateM.run_modify _ _)

theorem does_withTwo (hm : m.form = .twoReg) (h : Two dst src c) :
    Does (execute m.opcode) c (m.withTwo (c.past 1) dst src) := by
  cases m
  case xchg => exact does_exchange h
  case div => exact does_divide h
  case shl => exact does_shift shiftLeft h
  case shr => exact does_shift shiftRight h
  case cmp | test =>
    refine Does.bind h.run_descriptor (does_operands ?_)
    exact EStateM.run_modify _ _
  case add | sub | mul | and | or | xor => exact does_combine _ h
  all_goals cases hm

/-! ### One register or none -/

theorem psw_of_pushed {c' : Cpu} {v : UInt16} (h : c.pushed v = .ok c') : c'.psw = c.psw := by
  unfold pushed at h
  split at h
  · cases h
  · cases h
    rfl

theorem run_descriptor_one (h : Ahead [(Descriptor.dstOnly r.index).toByte] c) :
    descriptor.run c = .ok ⟨r.index, Register.noIndex⟩ (c.past 1) :=
  run_descriptor r.index_lt Register.noIndex_lt h

theorem does_interrupt (h : Ahead [(Descriptor.dstOnly r.index).toByte] c) :
    Does interrupt c (Mnemonic.int.withOne (c.past 1) r) := by
  refine Does.bind (run_descriptor_one h) (Does.bind (run_operand r _) ?_)
  refine Does.bind (EStateM.run_get _) ?_
  refine Does.seq (does_push _ _) fun c1 hpc => ?_
  refine Does.bind (EStateM.run_get _) ?_
  rw [psw_of_pushed hpc]
  exact Does.seq (does_push _ _) fun c2 _ => EStateM.run_modify _ _

theorem does_withOne (hm : m.form = .oneReg) (h : Ahead [(Descriptor.dstOnly r.index).toByte] c) :
    Does (execute m.opcode) c (m.withOne (c.past 1) r) := by
  cases m
  case int => exact does_interrupt h
  case not =>
    exact Does.bind (run_descriptor_one h) (Does.bind (run_operand r _) (run_setOperand r _ _))
  all_goals cases hm

theorem does_alone (hm : m.form = .bare) (c : Cpu) : Does (execute m.opcode) c (m.alone c) := by
  cases m
  case halt => exact EStateM.run_modify _ _
  case ret => exact Does.bind (run_pop c) (EStateM.run_modify _ _)
  case iret =>
    exact Does.bind (run_pop c) (Does.bind (EStateM.run_modify _ _) (Does.bind (run_pop _)
      (EStateM.run_modify _ _)))
  all_goals cases hm

/-! ### Operands -/

theorem does_jump {o : Operand} (hm : m.form = .jump) (hcall : m ≠ .call)
    (h : Ahead (o.tail Register.noIndex .regDirectAddition w) c) :
    Does (execute m.opcode) c (.ok
      (let next := c.past (o.tail Register.noIndex .regDirectAddition w).length
      if m.jumps next then next.setReg .pc (o.destination next w) else next)) := by
  have hrun := run_jump Register.noIndex_lt h
  cases m
  case jmp => exact hrun true
  case jeq | jne | jgt => exact Does.bind (EStateM.run_get c) (hrun _)
  case call => exact absurd rfl hcall
  all_goals cases hm

end Cpu

open Cpu

namespace Instruction

variable {i : Instruction} {c : Cpu} {w : UInt16} {bs : List UInt8}

/-- The bytes of an instruction begin with its operation. -/
theorem filled_encode (i : Instruction) (w : UInt16) :
    ∃ bs, i.encode.filled w = i.mnemonic.opcode.code :: bs := by
  obtain ⟨m, args⟩ := i
  cases args with
  | none => exact ⟨_, rfl⟩
  | one r => cases m <;> exact ⟨_, rfl⟩
  | two dst src => exact ⟨_, rfl⟩
  | jump o => exact ⟨_, o.filled_encode _ _ _ w⟩
  | data r o => exact ⟨_, o.filled_encode _ _ _ w⟩

/-- **The operation of an instruction** does with the bytes behind it what the instruction means. -/
theorem does_execute (hfit : i.arguments.Fit i.mnemonic.form) (hcall : i.mnemonic ≠ .call)
    (hbs : i.encode.filled w = i.mnemonic.opcode.code :: bs) (h : Ahead bs c) :
    Does (execute i.mnemonic.opcode) c (i.meaning w (c.past bs.length)) := by
  obtain ⟨m, args⟩ := i
  cases args with
  | none =>
    obtain rfl : [] = bs := (List.cons.inj hbs).2
    rw [List.length_nil, past_zero]
    cases m
    case halt | iret | ret => exact does_alone rfl c
    all_goals exact hfit.elim
  | one r =>
    cases m
    case push =>
      obtain rfl : [_, _] = bs := (List.cons.inj hbs).2
      exact does_storeOp_push h
    case pop =>
      obtain rfl : [_, _] = bs := (List.cons.inj hbs).2
      exact does_loadOp_pop h
    case int | not =>
      obtain rfl : [(Descriptor.dstOnly r.index).toByte] = bs := (List.cons.inj hbs).2
      exact does_withOne rfl h
    all_goals exact hfit.elim
  | two dst src =>
    obtain rfl : [(Descriptor.mk dst.index src.index).toByte] = bs := (List.cons.inj hbs).2
    have hform : m.form = .twoReg := by
      cases m <;> first | rfl | exact hfit.elim
    exact does_withTwo hform h
  | jump o =>
    obtain rfl := (List.cons.inj ((o.filled_encode _ _ _ w).symm.trans hbs)).2
    have hform : m.form = .jump := by
      cases m <;> first | rfl | exact hfit.elim
    exact does_jump hform hcall h
  | data r o =>
    obtain rfl := (List.cons.inj ((o.filled_encode _ _ _ w).symm.trans hbs)).2
    cases m
    case ldr => exact does_loadOp h
    case str => exact does_storeOp h
    all_goals exact hfit.elim

end Instruction

/-- A step executes the operation at the program counter. -/
theorem step_of_does {c : Cpu} {op : Opcode} {bs : List UInt8} {r : Except Fault Cpu}
    (h : Ahead (op.code :: bs) c) (hx : Does (execute op) (c.past 1) r) :
    match Cpu.step.run c with
    | .ok t c' => t = ⟨c.pc, op⟩ ∧ r = .ok c'
    | .error e _ => r = .error e := by
  unfold Cpu.step
  rw [EStateM.run_bind, EStateM.run_get]
  simp only
  rw [EStateM.run_bind, run_fetch h]
  simp only
  rw [Opcode.ofCode?_code]
  simp only
  rw [EStateM.run_bind]
  cases r with
  | ok c' =>
    rw [show (execute op).run (c.past 1) = .ok () c' from hx]
    exact ⟨rfl, rfl⟩
  | error e =>
    obtain ⟨c', hrun⟩ := hx
    rw [hrun]

theorem step_of_does_ok {c c' : Cpu} {op : Opcode} {bs : List UInt8} (h : Ahead (op.code :: bs) c)
    (hx : Does (execute op) (c.past 1) (.ok c')) : Cpu.step.run c = .ok ⟨c.pc, op⟩ c' := by
  have hstep := step_of_does h hx
  cases hrun : Cpu.step.run c with
  | ok t c1 =>
    rw [hrun] at hstep
    obtain ⟨rfl, hc1⟩ := hstep
    cases hc1
    rfl
  | error e c1 =>
    rw [hrun] at hstep
    cases hstep

/-- **The processor does what was written.** Let a source line give an instruction other than `CALL`,
and let its bytes, with any word in place of its symbol, lie ahead of the program counter. A step then
ends as the instruction means, with the program counter at the next instruction unless the instruction
writes it, and where it fails the fault lies in what the instruction does. -/
theorem step_of_encode {text : String} {l : SourceLine} {i : Instruction} {w : UInt16} {c : Cpu}
    (htext : SourceLine.ofText text = .ok l) (hl : l.statement = some (.instruction i))
    (hcall : i.mnemonic ≠ .call) (hinside : c.pc.toNat + i.encode.bytes.length ≤ 0xFFFF)
    (hbytes : ∀ k b, (i.encode.filled w)[k]? = some b → c.memory.byte (c.pc + UInt16.ofNat k) = b) :
    let next := c.past i.encode.bytes.length
    match Cpu.step.run c with
    | .ok t c' => t = ⟨c.pc, i.mnemonic.opcode⟩ ∧ i.meaning w next = .ok c' ∧
        (¬ i.writesPc next → c'.pc = c.pc + UInt16.ofNat i.encode.bytes.length)
    | .error e _ => i.meaning w next = .error e ∧ e ∈ Fault.ofUse := by
  obtain ⟨bs, hbs⟩ := i.filled_encode w
  have hlen : i.encode.bytes.length = bs.length + 1 := by
    rw [← i.encode.length_filled w, hbs, List.length_cons]
  have hahead : Ahead (i.mnemonic.opcode.code :: bs) c := by
    refine ⟨?_, fun k b hk => hbytes k b (by rwa [hbs])⟩
    rwa [List.length_cons, ← hlen]
  have hdoes := i.does_execute (SourceLine.fit_of_ofText htext hl) hcall hbs hahead.tail
  rw [past_past, Nat.add_comm, ← hlen] at hdoes
  have hstep := step_of_does hahead hdoes
  intro next
  cases hrun : Cpu.step.run c with
  | ok t c' =>
    rw [hrun] at hstep
    obtain ⟨ht, hmeaning⟩ := hstep
    refine ⟨ht, hmeaning, fun hw => ?_⟩
    rw [i.pc_of_meaning hmeaning hw]
    exact pc_past c _
  | error e c' =>
    rw [hrun] at hstep
    exact ⟨hstep, i.fault_of_meaning hstep⟩

/-- A processor about to execute bytes at an address, with zeros everywhere else. -/
def Cpu.holding (a : UInt16) (bs : List UInt8) : Cpu := (({} : Cpu).setReg .pc a).store a bs

/-- A load relative to the program counter, whose symbol is two bytes past the next instruction. -/
theorem step_of_encode_load :
    let i : Instruction := ⟨.ldr, .data .r1 (.pcRelative "x")⟩
    let c := Cpu.holding 0x100 [0xA0, 0x17, 0x03, 0x02, 0x00, 0x00, 0x00, 0xCD, 0xAB]
    SourceLine.ofText " ldr r1, %x" = .ok ⟨none, some (.instruction i)⟩ ∧ i.mnemonic ≠ .call ∧
    c.pc.toNat + i.encode.bytes.length ≤ 0xFFFF ∧
    (∀ k b, (i.encode.filled 2)[k]? = some b → c.memory.byte (c.pc + UInt16.ofNat k) = b) ∧
    ∃ c', Cpu.step.run c = .ok ⟨0x100, .ldr⟩ c' ∧ c'.pc = 0x105 ∧ c'.reg .r1 = 0xABCD := by
  intro i c
  have htext : SourceLine.ofText " ldr r1, %x" = .ok ⟨none, some (.instruction i)⟩ :=
    ok_of_toOption (by decide +kernel)
  have hcall : i.mnemonic ≠ .call := by decide
  have hinside : c.pc.toNat + i.encode.bytes.length ≤ 0xFFFF := by decide +kernel
  have hbytes : ∀ k b, (i.encode.filled 2)[k]? = some b →
      c.memory.byte (c.pc + UInt16.ofNat k) = b := by
    intro k b hk
    obtain ⟨hk5, rfl⟩ := List.getElem?_eq_some_iff.mp hk
    decide +revert +kernel
  refine ⟨htext, hcall, hinside, hbytes, ?_⟩
  have hstep := step_of_encode htext rfl hcall hinside hbytes
  cases hrun : Cpu.step.run c with
  | ok t c' =>
    rw [hrun] at hstep
    obtain ⟨rfl, hmeaning, hpc⟩ := hstep
    have hnot : Register.r1 ≠ .pc := by decide
    refine ⟨c', rfl, hpc hnot, ?_⟩
    cases hmeaning
    decide +kernel
  | error e c' =>
    rw [hrun] at hstep
    cases hstep.1

end Sx16
