/-
# Executing an instruction

`Cpu.step` executes the instruction at the program counter. The operand bytes of a jump or a data
instruction are decoded first; a conditional jump that is not taken only passes over them. Loading
from the stack pointer with an update after the access is a pop, and storing to it with an update
before is a push.

Key definitions: `Cpu.decode`, `Cpu.target`, `Cpu.jump`, `Cpu.loadOp`, `Cpu.storeOp`, `Cpu.execute`,
`Cpu.step`.
-/
import Sx16.Isa.Addressing
import Sx16.Isa.Opcode
import Sx16.Processor.Access

namespace Sx16

/-- An executed instruction. -/
structure Retired where
  address : UInt16
  opcode : Opcode
  deriving DecidableEq

/-- The operand bytes of a jump or a data instruction. -/
structure Decoded where
  descriptor : Descriptor
  mode : AddressMode
  update : UpdateMode
  /-- The payload; 0 if the mode has none. -/
  payload : UInt16
  deriving DecidableEq

/-- Whether bit 15 of a word is set. -/
def isNegative (w : UInt16) : Bool := w &&& 0x8000 != 0

/-- A word shifted to the left, and whether a one got past bit 15, which a wider word still holds. -/
def shiftLeft (d s : UInt16) : UInt16 × Bool :=
  if s = 0 then (d, false)
  else if s < 16 then (d <<< s, decide (0xFFFF < d.toUInt32 <<< s.toUInt32))
  else (0, d != 0)

/-- A word shifted to the right, and whether a one got past bit 0, which a mask selects. -/
def shiftRight (d s : UInt16) : UInt16 × Bool :=
  if s = 0 then (d, false)
  else if s < 16 then (d >>> s, d &&& ((1 <<< s) - 1) != 0)
  else (0, d != 0)

namespace Cpu

/-- The two register numbers of the descriptor at the program counter. -/
def descriptor : Exec Descriptor :=
  return Descriptor.ofByte (← fetch)

/-- The modes of a mode byte; the address mode is looked at first. -/
def modes (b : UInt8) : Exec (UpdateMode × AddressMode) :=
  match AddressMode.ofCode? (nibbles b).2 with
  | none => throw (.illegalInstruction .addressMode)
  | some mode =>
    match UpdateMode.ofCode? (nibbles b).1 with
    | none => throw (.illegalInstruction .updateMode)
    | some update => return (update, mode)

/-- Descriptor, mode byte and payload at the program counter. -/
def decode : Exec Decoded := do
  let descriptor ← descriptor
  let (update, mode) ← modes (← fetch)
  let payload ← if mode.hasPayload then fetchWord else pure 0
  return { descriptor, mode, update, payload }

/-- The word at a source register plus the payload, with the register's updates around the access. -/
def indirect (o : Decoded) : Exec UInt16 := do
  stepOperand o.descriptor.src o.update.before
  let a ← operand o.descriptor.src
  let v := (← get).memory.word (a + o.payload)
  stepOperand o.descriptor.src o.update.after
  return v

/-- The destination of a jump. -/
def target (o : Decoded) : Exec UInt16 := do
  match o.mode with
  | .immediate => return o.payload
  | .regDirect => operand o.descriptor.src
  | .regIndirect | .regIndirectOffset => indirect o
  | .memory => return (← get).memory.word o.payload
  | .regDirectAddition => return (← get).pc + o.payload

/-- Jumps to the target of the operand bytes. -/
def jumpTaken : Exec Unit := do
  let o ← decode
  let pc ← target o
  modify (·.setReg .pc pc)

/-- Passes over the operand bytes. -/
def jumpSkipped : Exec Unit := do
  let c ← get
  let (_, mode) ← modes (c.memory.byte (c.pc + 1))
  advanceBy (2 + mode.payloadSize)

/-- Jumps if the condition holds. -/
def jump (taken : Bool) : Exec Unit :=
  if taken then jumpTaken else jumpSkipped

/-- Sets the destination register to a function of both registers. -/
def combine (f : UInt16 → UInt16 → UInt16) : Exec Unit := do
  let ⟨dst, src⟩ ← descriptor
  let d ← operand dst
  let s ← operand src
  setOperand dst (f d s)

/-- The state with the flags of a comparison of two words. -/
def compared (d s : UInt16) (c : Cpu) : Cpu :=
  let t := d - s
  (((c.setFlag .zero (t == 0)).setFlag .negative (isNegative t)).setFlag .carry
    (decide (d < s))).setFlag .overflow
    (isNegative d != isNegative s && isNegative t != isNegative d)

/-- The state with the flags of a result. -/
def resultFlags (v : UInt16) (c : Cpu) : Cpu :=
  (c.setFlag .zero (v == 0)).setFlag .negative (isNegative v)

/-- Shifts the destination register by the source register. -/
def shift (f : UInt16 → UInt16 → UInt16 × Bool) : Exec Unit := do
  let ⟨dst, src⟩ ← descriptor
  let d ← operand dst
  let s ← operand src
  if isNegative s then throw (.illegalInstruction .negativeShift)
  let (v, carry) := f d s
  setOperand dst v
  modify fun c => (c.resultFlags v).setFlag .carry carry

/-- Whether the operand bytes ask for a pop. -/
def isPop (o : Decoded) : Bool :=
  o.mode == .regIndirect && o.descriptor.src == Register.sp.index && o.update == .postInc

/-- Whether the operand bytes ask for a push. -/
def isPush (o : Decoded) : Bool :=
  o.mode == .regIndirect && o.descriptor.src == Register.sp.index && o.update == .preDec

/-- Loads the destination register. -/
def loadOp : Exec Unit := do
  let o ← decode
  let ⟨dst, src⟩ := o.descriptor
  if isPop o then
    let v ← pop
    setOperand dst v
  else
    match o.mode with
    | .immediate => setOperand dst o.payload
    | .regDirect => do
      let v ← operand src
      setOperand dst v
    | .regIndirect | .regIndirectOffset => do
      stepOperand src o.update.before
      let a ← operand src
      setOperand dst ((← get).memory.word (a + o.payload))
      stepOperand src o.update.after
    | .memory => do setOperand dst ((← get).memory.word o.payload)
    | .regDirectAddition => do
      let v ← operand src
      setOperand dst (v + o.payload)

/-- Stores the destination register. -/
def storeOp : Exec Unit := do
  let o ← decode
  let ⟨dst, src⟩ := o.descriptor
  let v ← operand dst
  if isPush o then push v
  else
    match o.mode with
    | .immediate => throw (.illegalInstruction .storeImmediate)
    | .regDirect => setOperand src v
    | .regIndirect | .regIndirectOffset => do
      stepOperand src o.update.before
      let a ← operand src
      modify (·.putWord (a + o.payload) v)
      stepOperand src o.update.after
    | .memory => modify (·.putWord o.payload v)
    | .regDirectAddition => setOperand src (v + o.payload)

/-- Calls the handler of the line that a register names. -/
def interrupt : Exec Unit := do
  let ⟨dst, _⟩ ← descriptor
  let n ← operand dst
  push (← get).pc
  push (← get).psw
  modify fun c => c.setReg .pc (c.memory.word (vector (Line.ofNat n.toNat)))

/-- Calls the target of the operand bytes; the return address is pushed before the target is found. -/
def call : Exec Unit := do
  let o ← decode
  push (← get).pc
  let pc ← target o
  modify (·.setReg .pc pc)

/-- Exchanges two registers. -/
def exchange : Exec Unit := do
  let ⟨dst, src⟩ ← descriptor
  let d ← operand dst
  let s ← operand src
  setOperand dst s
  setOperand src d

/-- Divides the destination register by the source register. -/
def divide : Exec Unit := do
  let ⟨dst, src⟩ ← descriptor
  let d ← operand dst
  let s ← operand src
  if s = 0 then throw (.illegalInstruction .divisionByZero)
  setOperand dst (d / s)

/-- Carries out an operation; its operands are at the program counter. -/
def execute : Opcode → Exec Unit
  | .halt => modify fun c => { c with halted := true }
  | .int => interrupt
  | .iret => do
    let psw ← pop
    modify (·.setReg .psw psw)
    let pc ← pop
    modify (·.setReg .pc pc)
  | .ret => do
    let pc ← pop
    modify (·.setReg .pc pc)
  | .call => call
  | .jmp => jump true
  | .jeq => do jump ((← get).flag .zero)
  | .jne => do jump (!(← get).flag .zero)
  | .jgt => do
    let c ← get
    jump (!c.flag .zero && c.flag .negative == c.flag .overflow)
  | .xchg => exchange
  | .add => combine (· + ·)
  | .sub => combine (· - ·)
  | .mul => combine (· * ·)
  | .div => divide
  | .cmp => do
    let ⟨dst, src⟩ ← descriptor
    let d ← operand dst
    let s ← operand src
    modify (compared d s)
  | .not => do
    let ⟨dst, _⟩ ← descriptor
    let d ← operand dst
    setOperand dst (~~~d)
  | .and => combine (· &&& ·)
  | .or => combine (· ||| ·)
  | .xor => combine (· ^^^ ·)
  | .test => do
    let ⟨dst, src⟩ ← descriptor
    let d ← operand dst
    let s ← operand src
    modify (resultFlags (d &&& s))
  | .shl => shift shiftLeft
  | .shr => shift shiftRight
  | .ldr => loadOp
  | .str => storeOp

/-- Executes the instruction at the program counter. -/
def step : Exec Retired := do
  let address := (← get).pc
  let b ← fetch
  match Opcode.ofCode? b with
  | none => throw (.illegalOpcode b address)
  | some opcode => do
    execute opcode
    return { address, opcode }

end Cpu
end Sx16
