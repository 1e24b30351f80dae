/-
# What an instruction means

The meaning of an instruction as it is written, with no encoding in between. It is told for a state
whose program counter is at the next instruction, since that is what an instruction sees of it. A
symbol in an operand stands for a word: its address, or for a symbol relative to the program counter
its distance from the next instruction.

Key definitions: `Location`, `Operand.location`, `Operand.destination`, `Mnemonic.jumps`,
`Instruction.meaning`, `Instruction.writesPc`.
Key theorems: `Instruction.pc_of_meaning`, `Instruction.fault_of_meaning`.
-/
import Sx16.Processor.Execute
import Sx16.Source.Statement

namespace Sx16

/-- What a data operand denotes. -/
inductive Location where
  /-- A word that cannot be written. -/
  | constant (v : UInt16)
  /-- The contents of a register. -/
  | register (r : Register)
  /-- The word at an address. -/
  | cell (a : UInt16)
  deriving DecidableEq

namespace Location

/-- The word at a location. -/
def get (c : Cpu) : Location → UInt16
  | constant v => v
  | register r => c.reg r
  | cell a => c.memory.word a

/-- The state with another word at a location. -/
def put (c : Cpu) (v : UInt16) : Location → Except Fault Cpu
  | constant _ => .error (.illegalInstruction .storeImmediate)
  | register r => .ok (c.setReg r v)
  | cell a => .ok (c.putWord a v)

end Location

/-- The word of a value whose symbol stands for `w`. -/
def Value.wordOr (w : UInt16) : Value → UInt16
  | literal v => v
  | symbol _ => w

namespace Operand

/-- The location of a data operand whose symbol stands for `w`. -/
def location (c : Cpu) (w : UInt16) : Operand → Location
  | immediate v => .constant (v.wordOr w)
  | memory v => .cell (v.wordOr w)
  | pcRelative _ => .cell (c.pc + w)
  | register r => .register r
  | indirect r => .cell (c.reg r)
  | indexed r v => .cell (c.reg r + v.wordOr w)

/-- Where a jump goes: to the word of its operand, but a symbol relative to the program counter is
itself the destination. -/
def destination (c : Cpu) (w : UInt16) : Operand → UInt16
  | pcRelative _ => c.pc + w
  | o => (o.location c w).get c

end Operand

namespace Cpu

/-- The state with a word on the stack, if there is room above the image. -/
def pushed (c : Cpu) (v : UInt16) : Except Fault Cpu :=
  if (c.sp - 2).toNat ≤ c.top then .error .stackOverflow
  else .ok ((c.setReg .sp (c.sp - 2)).putWord (c.sp - 2) v)

/-- The word on top of the stack. -/
def stackTop (c : Cpu) : UInt16 := c.memory.word c.sp

/-- The state without the word on top of the stack. -/
def popped (c : Cpu) : Cpu := c.setReg .sp (c.sp + 2)

/-- The state with the results of a shift, if the distance is not negative. -/
def shifted (c : Cpu) (dst : Register) (s : UInt16) (r : UInt16 × Bool) : Except Fault Cpu :=
  if isNegative s then .error (.illegalInstruction .negativeShift)
  else .ok ((((c.setReg dst r.1).setFlag .zero (r.1 == 0)).setFlag .negative (isNegative r.1)).setFlag
    .carry r.2)

end Cpu

namespace Mnemonic

/-- Whether a jump is taken. -/
def jumps (c : Cpu) : Mnemonic → Bool
  | jmp => true
  | jeq => c.flag .zero
  | jne => !c.flag .zero
  | jgt => !c.flag .zero && c.flag .negative == c.flag .overflow
  | _ => false

/-- The meaning of an instruction without arguments. -/
def alone (c : Cpu) : Mnemonic → Except Fault Cpu
  | halt => .ok { c with halted := true }
  | ret => .ok (c.popped.setReg .pc c.stackTop)
  | iret =>
    let c' := c.popped.setReg .psw c.stackTop
    .ok (c'.popped.setReg .pc c'.stackTop)
  | _ => .ok c

/-- The meaning of an instruction of one register. -/
def withOne (c : Cpu) (r : Register) : Mnemonic → Except Fault Cpu
  | int => do
    let c' ← (← c.pushed c.pc).pushed c.psw
    return c'.setReg .pc (c'.memory.word (vector (Line.ofNat (c.reg r).toNat)))
  | not => .ok (c.setReg r (~~~c.reg r))
  | push => c.pushed (c.reg r)
  | pop => .ok (c.popped.setReg r c.stackTop)
  | _ => .ok c

/-- The meaning of an instruction of two registers. -/
def withTwo (c : Cpu) (dst src : Register) (m : Mnemonic) : Except Fault Cpu :=
  let d := c.reg dst
  let s := c.reg src
  match m with
  | xchg => .ok ((c.setReg dst s).setReg src d)
  | add => .ok (c.setReg dst (d + s))
  | sub => .ok (c.setReg dst (d - s))
  | mul => .ok (c.setReg dst (d * s))
  | div => if s = 0 then .error (.illegalInstruction .divisionByZero) else .ok (c.setReg dst (d / s))
  | cmp => .ok (c.compared d s)
  | and => .ok (c.setReg dst (d &&& s))
  | or => .ok (c.setReg dst (d ||| s))
  | xor => .ok (c.setReg dst (d ^^^ s))
  | test => .ok (c.resultFlags (d &&& s))
  | shl => c.shifted dst s (shiftLeft d s)
  | shr => c.shifted dst s (shiftRight d s)
  | _ => .ok c

end Mnemonic

namespace Instruction

/-- The meaning of an instruction whose symbol stands for `w`, from a state whose program counter is
at the next instruction. -/
def meaning (w : UInt16) (c : Cpu) (i : Instruction) : Except Fault Cpu :=
  match i.arguments with
  | .none => i.mnemonic.alone c
  | .one r => i.mnemonic.withOne c r
  | .two dst src => i.mnemonic.withTwo c dst src
  | .jump o => .ok (if i.mnemonic.jumps c then c.setReg .pc (o.destination c w) else c)
  | .data r o =>
    match i.mnemonic with
    | .ldr => .ok (c.setReg r ((o.location c w).get c))
    | .str => (o.location c w).put c (c.reg r)
    | _ => .ok c

/-- Whether an instruction writes the program counter. -/
def writesPc (c : Cpu) (i : Instruction) : Prop :=
  match i.arguments, i.mnemonic with
  | .none, .ret | .none, .iret | .one _, .int => True
  | .one r, .not | .one r, .pop => r = .pc
  | .two _ _, .cmp | .two _ _, .test => False
  | .two dst src, .xchg => dst = .pc ∨ src = .pc
  | .two dst _, _ => dst = .pc
  | .jump _, m => m.jumps c = true
  | .data r _, .ldr => r = .pc
  | .data _ o, .str => o = .register .pc
  | _, _ => False

end Instruction

/-! ### The program counter -/

namespace Cpu

variable {c c' : Cpu} {v : UInt16}

theorem pc_setReg (c : Cpu) (r : Register) (v : UInt16) :
    (c.setReg r v).pc = if r = .pc then v else c.pc := reg_setReg c r .pc v

theorem pc_setReg_of_ne {r : Register} (h : r ≠ .pc) (c : Cpu) (v : UInt16) :
    (c.setReg r v).pc = c.pc := (pc_setReg c r v).trans (if_neg h)

theorem pc_popped (c : Cpu) : c.popped.pc = c.pc := pc_setReg_of_ne (by decide) c _

theorem pc_of_pushed (h : c.pushed v = .ok c') : c'.pc = c.pc := by
  unfold pushed at h
  split at h
  · cases h
  · cases h
    exact pc_setReg_of_ne (by decide) c _

theorem pc_of_shifted {dst : Register} {s : UInt16} {r : UInt16 × Bool} (hdst : dst ≠ .pc)
    (h : c.shifted dst s r = .ok c') : c'.pc = c.pc := by
  unfold shifted at h
  split at h
  · cases h
  · cases h
    exact pc_setReg_of_ne hdst c _

end Cpu

namespace Mnemonic

variable {c c' : Cpu} {r dst src : Register} {m : Mnemonic}

theorem pc_of_alone (h : m.alone c = .ok c') (hw : ¬ (Instruction.mk m .none).writesPc c) :
    c'.pc = c.pc := by
  cases m
  case ret | iret => exact absurd trivial hw
  all_goals
    cases h
    rfl

theorem pc_of_withOne (h : m.withOne c r = .ok c')
    (hw : ¬ (Instruction.mk m (.one r)).writesPc c) : c'.pc = c.pc := by
  cases m
  case int => exact absurd trivial hw
  case not =>
    cases h
    exact Cpu.pc_setReg_of_ne hw c _
  case push => exact Cpu.pc_of_pushed h
  case pop =>
    cases h
    exact (Cpu.pc_setReg_of_ne hw _ _).trans (Cpu.pc_popped c)
  all_goals
    cases h
    rfl

theorem pc_of_withTwo (h : m.withTwo c dst src = .ok c')
    (hw : ¬ (Instruction.mk m (.two dst src)).writesPc c) : c'.pc = c.pc := by
  cases m
  case xchg =>
    obtain ⟨hdst, hsrc⟩ := not_or.mp hw
    cases h
    exact (Cpu.pc_setReg_of_ne hsrc _ _).trans (Cpu.pc_setReg_of_ne hdst c _)
  case div =>
    simp only [withTwo] at h
    split at h
    · cases h
    · cases h
      exact Cpu.pc_setReg_of_ne hw c _
  case shl => exact Cpu.pc_of_shifted hw h
  case shr => exact Cpu.pc_of_shifted hw h
  case add | sub | mul | and | or | xor =>
    cases h
    exact Cpu.pc_setReg_of_ne hw c _
  all_goals
    cases h
    rfl

end Mnemonic

theorem Operand.pc_of_put {c c' : Cpu} {w v : UInt16} {o : Operand}
    (h : (o.location c w).put c v = .ok c') (hw : o ≠ .register .pc) : c'.pc = c.pc := by
  cases o with
  | register r =>
    cases h
    exact Cpu.pc_setReg_of_ne (fun he => hw (congrArg Operand.register he)) c _
  | immediate v => cases h
  | memory | pcRelative | indirect | indexed =>
    cases h
    rfl

/-- **An instruction that does not write the program counter** leaves it at the next instruction. -/
theorem Instruction.pc_of_meaning {c c' : Cpu} {w : UInt16} {i : Instruction}
    (h : i.meaning w c = .ok c') (hw : ¬ i.writesPc c) : c'.pc = c.pc := by
  obtain ⟨m, args⟩ := i
  cases args with
  | none => exact Mnemonic.pc_of_alone h hw
  | one r => exact Mnemonic.pc_of_withOne h hw
  | two dst src => exact Mnemonic.pc_of_withTwo h hw
  | jump o =>
    cases h
    exact congrArg Cpu.pc (if_neg hw)
  | data r o =>
    cases m
    case ldr =>
      cases h
      exact Cpu.pc_setReg_of_ne hw c _
    case str => exact Operand.pc_of_put h hw
    all_goals
      cases h
      rfl

/-! ### Faults -/

/-- The faults that lie in what an instruction does and not in its bytes. -/
def Fault.ofUse : List Fault :=
  [.stackOverflow, .illegalInstruction .storeImmediate, .illegalInstruction .divisionByZero,
    .illegalInstruction .negativeShift]

variable {c : Cpu} {v w : UInt16} {e : Fault} {dst src r : Register} {m : Mnemonic}

theorem Cpu.fault_of_pushed (h : c.pushed v = .error e) : e ∈ Fault.ofUse := by
  unfold pushed at h
  split at h
  · cases h
    decide
  · cases h

theorem Cpu.fault_of_shifted {t : UInt16 × Bool} (h : c.shifted dst v t = .error e) :
    e ∈ Fault.ofUse := by
  unfold shifted at h
  split at h
  · cases h
    decide
  · cases h

theorem Mnemonic.fault_of_withOne (h : m.withOne c r = .error e) : e ∈ Fault.ofUse := by
  cases m
  case int =>
    simp only [withOne] at h
    cases hpc : c.pushed c.pc with
    | error e' =>
      rw [hpc] at h
      cases h
      exact Cpu.fault_of_pushed hpc
    | ok c' =>
      rw [hpc] at h
      simp only [bind, Except.bind] at h
      cases hpsw : c'.pushed c.psw with
      | error e' =>
        rw [hpsw] at h
        cases h
        exact Cpu.fault_of_pushed hpsw
      | ok c2 =>
        rw [hpsw] at h
        cases h
  case push => exact Cpu.fault_of_pushed h
  all_goals cases h

theorem Mnemonic.fault_of_withTwo (h : m.withTwo c dst src = .error e) : e ∈ Fault.ofUse := by
  cases m
  case div =>
    simp only [withTwo] at h
    split at h
    · cases h
      decide
    · cases h
  case shl => exact Cpu.fault_of_shifted h
  case shr => exact Cpu.fault_of_shifted h
  all_goals cases h

theorem Location.fault_of_put {l : Location} (h : l.put c v = .error e) : e ∈ Fault.ofUse := by
  cases l with
  | constant v' =>
    cases h
    decide
  | register r => cases h
  | cell a => cases h

/-- **The faults of a meaning** lie in what the instruction does. -/
theorem Instruction.fault_of_meaning {i : Instruction} (h : i.meaning w c = .error e) :
    e ∈ Fault.ofUse := by
  obtain ⟨m, args⟩ := i
  cases args with
  | none => cases m <;> cases h
  | one r => exact Mnemonic.fault_of_withOne h
  | two dst src => exact Mnemonic.fault_of_withTwo h
  | jump o => cases h
  | data r o =>
    cases m
    case str => exact Location.fault_of_put h
    all_goals cases h

end Sx16
